import JetForm.Proofs.Outcome
import JetForm.Proofs.Tree.Shape
import JetForm.Proofs.Tree.Traversal
import JetForm.Render.Infix

/-! # Written formulas

    The text of a formula is described character by character.  `strip` looks
    for the parenthesis that closes the first one by counting; in a balanced
    text this is the last character exactly if the text is enclosed as a whole,
    so only binary operations lose a pair.

    A tree is plain if it contains no external value, whose label may be any
    text, and if a state entry determines the unknown and the order that it
    holds. -/

namespace JetForm

namespace Infix

theorem isAlphanum_of_mem_toDigits (n : Nat) : ∀ c ∈ Nat.toDigits 10 n, c.isAlphanum = true := by
  intro c hc
  simp [Char.isAlphanum, Nat.isDigit_of_mem_toDigits (by decide) (by decide) hc]

theorem sign_or_digit_of_mem_repr (i : Int) :
    ∀ c ∈ i.repr.toList, c = '-' ∨ c.isAlphanum = true := by
  intro c hc
  cases i with
  | ofNat n => exact .inr (isAlphanum_of_mem_toDigits n c (by simpa [Int.repr] using hc))
  | negSucc n =>
    have digits : c = '-' ∨ c ∈ Nat.toDigits 10 (n + 1) := by simpa [Int.repr] using hc
    exact digits.imp_right (isAlphanum_of_mem_toDigits (n + 1) c)

/-! ## Balanced texts -/

/-- Texts in which every parenthesis is closed. -/
inductive Balanced : List Char → Prop
  | nil : Balanced []
  | char {c : Char} (opens : c ≠ '(') (closes : c ≠ ')') : Balanced [c]
  | append {early late : List Char} (first : Balanced early) (second : Balanced late) :
      Balanced (early ++ late)
  | enclose {inner : List Char} (inside : Balanced inner) : Balanced ('(' :: inner ++ [')'])

namespace Balanced

theorem cons {c : Char} {cs : List Char} (opens : c ≠ '(') (closes : c ≠ ')')
    (later : Balanced cs) : Balanced (c :: cs) :=
  .append (.char opens closes) later

theorem of_forall {cs : List Char} (plain : ∀ c ∈ cs, c ≠ '(' ∧ c ≠ ')') : Balanced cs := by
  induction cs with
  | nil => exact .nil
  | cons c cs ih =>
    obtain ⟨first, later⟩ := List.forall_mem_cons.mp plain
    exact .cons first.1 first.2 (ih later)

theorem of_isAlphanum {cs : List Char} (word : ∀ c ∈ cs, c.isAlphanum = true) : Balanced cs :=
  of_forall fun c hc => by
    have letter := word c hc
    constructor <;> rintro rfl <;> cases letter

theorem toDigits (n : Nat) : Balanced (Nat.toDigits 10 n) :=
  of_isAlphanum (isAlphanum_of_mem_toDigits n)

theorem repr (i : Int) : Balanced i.repr.toList := of_forall fun c hc => by
  rcases sign_or_digit_of_mem_repr i c hc with rfl | letter
  · decide
  · constructor <;> rintro rfl <;> cases letter

/-- Inside of a parenthesis, a balanced text does not close it. -/
theorem closesEarly_append {cs : List Char} (balanced : Balanced cs) (depth : Nat)
    {rest : List Char} (more : rest ≠ []) :
    closesEarly (depth + 1) (cs ++ rest) = closesEarly (depth + 1) rest := by
  induction balanced generalizing depth rest with
  | nil => rfl
  | @char c opens closes =>
    obtain ⟨d, rest, rfl⟩ := List.exists_cons_of_ne_nil more
    simp [closesEarly, opens, closes]
  | append _ _ ihe ihl =>
    -- What follows the early part is not empty, because `rest` is not.
    rw [List.append_assoc, ihe depth (by simp [more]), ihl depth more]
  | @enclose inner _ ih =>
    obtain ⟨d, rest, rfl⟩ := List.exists_cons_of_ne_nil more
    have opened : closesEarly (depth + 1) ('(' :: (inner ++ ')' :: d :: rest)) =
        closesEarly (depth + 2) (inner ++ ')' :: d :: rest) := by
      rw [closesEarly] <;> simp
    have closed : closesEarly (depth + 2) (')' :: d :: rest) =
        closesEarly (depth + 1) (d :: rest) := by
      simp [closesEarly]
    simpa [opened, ← closed] using ih (depth + 1) (List.cons_ne_nil ')' (d :: rest))

/-- The parenthesis around a balanced text closes at the end. -/
theorem not_closesEarly {inner : List Char} (balanced : Balanced inner) :
    closesEarly 0 ('(' :: inner ++ [')']) = false := by
  have opened : closesEarly 0 ('(' :: (inner ++ [')'])) = closesEarly 1 (inner ++ [')']) := by
    rw [closesEarly] <;> simp
  rw [List.cons_append, opened, balanced.closesEarly_append 0 (by simp)]
  rfl

end Balanced

/-! ## Dropping parentheses -/

theorem toList_strip_enclosed {s : String} {inner : List Char} (balanced : Balanced inner)
    (enclosed : s.toList = '(' :: inner ++ [')']) : (strip s).toList = inner := by
  have starts : s.startsWith "(" = true := by
    simp [String.startsWith_string_iff, enclosed]
  have ends : s.endsWith ")" = true := by
    rw [String.endsWith_eq_endsWith_toSlice, String.Slice.endsWith_string_iff]
    simp [enclosed, -List.cons_append_fun]
  have late : closesEarly 0 s.toList = false := by rw [enclosed, balanced.not_closesEarly]
  rw [strip, starts, ends, late]
  simp [enclosed]

theorem strip_of_head {s : String} (first : s.toList.head? ≠ some '(') : strip s = s := by
  have starts : s.startsWith "(" = false := by
    rw [Bool.eq_false_iff, ne_eq, String.startsWith_string_iff]
    rintro ⟨rest, eq⟩
    exact first (by simp [← eq])
  rw [strip, starts]
  simp

/-- The operand of a sign stands in parentheses or as it is. -/
theorem signOperand_cases (inner : String) :
    signOperand inner = inner ∨ signOperand inner = "(" ++ inner ++ ")" := by
  rw [signOperand]
  split
  · exact .inr rfl
  · exact .inl rfl

end Infix

/-! ## The text of one node -/

namespace UnaryOp

/-- A name consists of letters and digits. -/
theorem isAlphanum_of_mem_name (op : UnaryOp) : ∀ c ∈ op.name.toList, c.isAlphanum = true := by
  have all : op.name.toList.all Char.isAlphanum = true := by cases op <;> rfl
  exact List.all_eq_true.mp all

theorem name_ne_nil (op : UnaryOp) : op.name.toList ≠ [] := by
  cases op <;> decide

theorem name_ne_diff (op : UnaryOp) : op.name.toList ≠ "diff".toList := by
  cases op <;> decide

theorem ofName?_name (op : UnaryOp) : ofName? op.name = some op := by
  cases op <;> decide

end UnaryOp

namespace Tree

open Infix

theorem toList_infixBody_leaf (var : Nat) :
    (leaf var).infixBody.toList = 'u' :: Nat.toDigits 10 var := by
  simp only [infixBody, String.toList_append, Nat.toString_eq_repr, Nat.toList_repr]
  rfl

theorem toList_infixBody_slot (index : Int) (var : Nat) (order : Int) :
    (slot index var order).infixBody.toList = 'x' :: '[' :: (index.repr.toList ++ [']']) := by
  simp only [infixBody, String.toList_append, Int.toString_eq_repr]
  rfl

theorem toList_infixBody_uminus (child : Tree) :
    (unary .uminus child).infixBody.toList = '-' :: (signOperand child.infixBody).toList := by
  simp [infixBody, Infix.unary]

theorem toList_infixBody_uplus (child : Tree) :
    (unary .uplus child).infixBody.toList = '+' :: (signOperand child.infixBody).toList := by
  simp [infixBody, Infix.unary]

theorem toList_infixBody_call {op : UnaryOp} (call : op.isSign = false) (child : Tree) :
    (unary op child).infixBody.toList = op.name.toList ++ '(' :: child.infixText.toList ++ [')'] := by
  have body : (unary op child).infixBody = op.name ++ "(" ++ child.infixText ++ ")" := by
    cases op <;> first | rfl | cases call
  simp [body]

theorem toList_infixBody_treeTree (op : BinaryOp) (left right : Tree) :
    (treeTree op left right).infixBody.toList =
      '(' :: (left.infixBody.toList ++ ' ' :: op.symbol.toList ++ ' ' :: right.infixBody.toList) ++
        [')'] := by
  simp [infixBody, binary]

theorem toList_infixBody_derivative (child : Tree) (order : Nat) :
    (derivative child order).infixBody.toList = "diff".toList ++ '(' :: (child.infixText.toList ++
      if order = 1 then [] else ',' :: ' ' :: Nat.toDigits 10 order) ++ [')'] := by
  rw [infixBody, Infix.derivative, ← infixText]
  split <;> simp

/-! ## Plain trees -/

/-- Is the tree made without external values, with `layout` saying which unknown
    and which order an entry of the state holds? -/
def Plain (layout : Int → Nat × Int) : Tree → Prop
  | .leaf _ | .independent => True
  | .constant _ | .valueTree .. | .treeValue .. => False
  | .slot index var order => layout index = (var, order)
  | .unary _ child => child.Plain layout
  | .treeTree _ left right => left.Plain layout ∧ right.Plain layout
  | .derivative child _ => child.Plain layout

variable {layout : Int → Nat × Int}

/-- Only binary operations are written in parentheses. -/
theorem head_infixBody {t : Tree} (plain : t.Plain layout)
    (simple : ∀ op left right, t ≠ treeTree op left right) :
    t.infixBody.toList.head? ≠ some '(' := by
  cases t with
  | leaf var => simp [toList_infixBody_leaf]
  | independent => decide
  | constant | valueTree | treeValue => exact plain.elim
  | slot index var order => simp [toList_infixBody_slot]
  | treeTree op left right => exact absurd rfl (simple op left right)
  | derivative child order => simp [toList_infixBody_derivative]
  | unary op child =>
    cases sign : op.isSign with
    | true =>
      rcases UnaryOp.eq_of_isSign sign with rfl | rfl
      · simp [toList_infixBody_uminus]
      · simp [toList_infixBody_uplus]
    | false =>
      obtain ⟨c, name, eq⟩ := List.exists_cons_of_ne_nil op.name_ne_nil
      have letter := op.isAlphanum_of_mem_name c (by simp [eq])
      rw [toList_infixBody_call sign, eq]
      rintro h
      obtain rfl : c = '(' := by simpa using h
      cases letter

theorem infixText_of_simple {t : Tree} (plain : t.Plain layout)
    (simple : ∀ op left right, t ≠ treeTree op left right) : t.infixText = t.infixBody :=
  strip_of_head (head_infixBody plain simple)

theorem balanced_operation (op : BinaryOp) {left right : List Char} (first : Balanced left)
    (second : Balanced right) : Balanced (left ++ ' ' :: op.symbol.toList ++ ' ' :: right) := by
  have symbol : Balanced (' ' :: op.symbol.toList) := by
    cases op <;> exact .cons (by decide) (by decide) (.char (by decide) (by decide))
  exact .append (.append first symbol) (.cons (by decide) (by decide) second)

/-- All parentheses of a formula are closed, also without the outer pair. -/
theorem balanced_infixBody {t : Tree} (plain : t.Plain layout) :
    Balanced t.infixBody.toList ∧ Balanced t.infixText.toList := by
  -- All trees but binary operations have one text.
  have simple : ∀ {t : Tree}, t.Plain layout → (∀ op left right, t ≠ treeTree op left right) →
      Balanced t.infixBody.toList → Balanced t.infixBody.toList ∧ Balanced t.infixText.toList :=
    fun plain simple balanced => ⟨balanced, infixText_of_simple plain simple ▸ balanced⟩
  induction t with
  | leaf var =>
    refine simple plain (by simp) ?_
    rw [toList_infixBody_leaf]
    exact .cons (by decide) (by decide) (.toDigits var)
  | independent => exact simple plain (by simp) (.char (by decide) (by decide))
  | constant | valueTree | treeValue => exact plain.elim
  | slot index var order =>
    refine simple plain (by simp) ?_
    rw [toList_infixBody_slot]
    exact .cons (by decide) (by decide) (.cons (by decide) (by decide)
      (.append (.repr index) (.char (by decide) (by decide))))
  | unary op child ih =>
    obtain ⟨body, text⟩ := ih plain
    refine simple plain (by simp) ?_
    cases sign : op.isSign with
    | true =>
      have operand : Balanced (signOperand child.infixBody).toList := by
        rcases signOperand_cases child.infixBody with eq | eq
        · rwa [eq]
        · simpa [eq] using body.enclose
      rcases UnaryOp.eq_of_isSign sign with rfl | rfl
      · rw [toList_infixBody_uminus]
        exact .cons (by decide) (by decide) operand
      · rw [toList_infixBody_uplus]
        exact .cons (by decide) (by decide) operand
    | false =>
      rw [toList_infixBody_call sign, List.append_assoc]
      exact .append (.of_isAlphanum op.isAlphanum_of_mem_name) text.enclose
  | treeTree op left right ihl ihr =>
    have inner := balanced_operation op (ihl plain.1).1 (ihr plain.2).1
    rw [infixText, toList_strip_enclosed inner (toList_infixBody_treeTree op left right),
      toList_infixBody_treeTree]
    exact ⟨inner.enclose, inner⟩
  | derivative child order ih =>
    refine simple plain (by simp) ?_
    have name : Balanced "diff".toList :=
      .of_isAlphanum (List.all_eq_true.mp (by rfl : "diff".toList.all Char.isAlphanum = true))
    have suffix : Balanced (if order = 1 then [] else ',' :: ' ' :: Nat.toDigits 10 order) := by
      split
      · exact .nil
      · exact .cons (by decide) (by decide) (.cons (by decide) (by decide) (.toDigits order))
    rw [toList_infixBody_derivative, List.append_assoc]
    exact .append name ((ih plain).2.append suffix).enclose

/-- A binary operation loses its parentheses. -/
theorem toList_infixText_treeTree {op : BinaryOp} {left right : Tree}
    (plain : (treeTree op left right).Plain layout) :
    (treeTree op left right).infixText.toList =
      left.infixBody.toList ++ ' ' :: op.symbol.toList ++ ' ' :: right.infixBody.toList :=
  toList_strip_enclosed
    (balanced_operation op (balanced_infixBody plain.1).1 (balanced_infixBody plain.2).1)
    (toList_infixBody_treeTree op left right)

end Tree

/-! ## Trees in an arena -/

namespace Arena

variable {a : Arena}

/-- With default names every node can be written. -/
theorem infixNode_eq {text : Nat → String} {node : Node}
    (children : ∀ c ∈ node.children, text c = (a.tree c).infixBody) :
    a.infixNode [] text node = .ok (a.treeOf node).infixBody := by
  cases node with
  | leaf | independent | constant | slot => rfl
  | unary op c =>
    show Except.ok (Infix.unary op (text c)) = _
    rw [children c (by simp [Node.children])]
    rfl
  | derivative c order =>
    show Except.ok (Infix.derivative (text c) order) = _
    rw [children c (by simp [Node.children])]
    rfl
  | binary op operands =>
    cases operands with
    | valueTree v t =>
      show Except.ok (Infix.binary op (a.value v).label (text t)) = _
      rw [children t (by simp [Node.children, Operands.trees])]
      rfl
    | treeValue t v =>
      show Except.ok (Infix.binary op (text t) (a.value v).label) = _
      rw [children t (by simp [Node.children, Operands.trees])]
      rfl
    | treeTree l r =>
      show Except.ok (Infix.binary op (text l) (text r)) = _
      rw [children l (by simp [Node.children, Operands.trees]),
        children r (by simp [Node.children, Operands.trees])]
      rfl

/-- The sweep over an arena writes the formula of the tree below its root. -/
theorem infixText_eq {root : Nat} (inside : root < a.count) :
    a.infixText root = .ok (a.tree root).infixText := by
  have roots : ∀ r ∈ [root], r < a.count := by simpa using inside
  have written : Ended (a.infixText root) (· = (a.tree root).infixText) fun _ => False := by
    rw [infixText]
    refine Ended.bind ((ended_sweep roots (fun before texts =>
      ∀ h ∈ before, (texts[h]?).getD "" = (a.tree h).infixBody) (by simp) ?_).mono ?_ fun _ => id)
    · -- The children of a node are written before it is its turn.
      intro before h node texts turn holds
      rw [infixNode_eq fun c hc => holds c (turn.children c hc)]
      intro g hg
      rw [Std.HashMap.getElem?_insert]
      by_cases same : h = g
      · simp [same, ← tree_eq (same ▸ turn.stored)]
      · have mem : g ∈ before := by simpa [Ne.symm same] using hg
        simpa [same] using holds g mem
    · intro texts holds
      show Infix.strip _ = Infix.strip _
      rw [holds root ((mem_postorder roots).mpr ⟨root, by simp, .refl a root⟩)]
  cases outcome : a.infixText root with
  | ok text => rw [written.of_ok outcome]
  | error e => exact (written.of_error outcome).elim

end Arena

end JetForm
