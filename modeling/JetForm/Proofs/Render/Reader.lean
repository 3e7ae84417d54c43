import Std.Data.String.ToInt
import JetForm.Proofs.Render.Infix

/-! # Reading formulas

    A reader for the formulas of plain trees.  A word of letters and digits is
    a leaf, or a call if a parenthesis follows.  Parentheses may stand around
    any formula, and the operand of a sign is an operand again; so the reader
    accepts more texts than are written, but every written one in a single way.

    Texts do not say which unknown an entry of the state belongs to; the reader
    is told by the layout of the state. -/

namespace JetForm

namespace Infix

/-! ## The reader -/

/-- The operation that is written with a given sign. -/
def operation? (c : Char) : Option BinaryOp :=
  BinaryOp.all.find? fun op => op.symbol.toList == [c]

/-- Read a leaf, of which a word has been read. -/
def readLeaf (layout : Int → Nat × Int) : List Char → List Char → Option (Tree × List Char)
  | ['t'], rest => some (.independent, rest)
  | 'u' :: digits, rest => (String.ofList digits).toNat?.map fun var => (.leaf var, rest)
  | ['x'], '[' :: text =>
    match text.dropWhile (· != ']') with
    | ']' :: rest => (String.ofList (text.takeWhile (· != ']'))).toInt?.map fun index =>
      (.slot index (layout index).1 (layout index).2, rest)
    | _ => none
  | _, _ => none

/-- Read the end of a call, of which the word and the argument have been read. -/
def readCall (name : List Char) (argument : Tree) : List Char → Option (Tree × List Char)
  | ')' :: rest =>
    if name = "diff".toList then some (.derivative argument 1, rest)
    else (UnaryOp.ofName? (String.ofList name)).map fun op => (.unary op argument, rest)
  | ',' :: ' ' :: text =>
    match text.dropWhile Char.isDigit with
    | ')' :: rest => (String.ofList (text.takeWhile Char.isDigit)).toNat?.map fun order =>
      (.derivative argument order, rest)
    | _ => none
  | _ => none

mutual

/-- Read an operand.  The budget bounds the nesting. -/
def readOperand (layout : Int → Nat × Int) : Nat → List Char → Option (Tree × List Char)
  | 0, _ => none
  | budget + 1, '(' :: text =>
    match readFormula layout budget text with
    | some (t, ')' :: rest) => some (t, rest)
    | _ => none
  | budget + 1, '-' :: text =>
    (readOperand layout budget text).map fun (t, rest) => (.unary .uminus t, rest)
  | budget + 1, '+' :: text =>
    (readOperand layout budget text).map fun (t, rest) => (.unary .uplus t, rest)
  | budget + 1, text =>
    let name := text.takeWhile Char.isAlphanum
    match text.dropWhile Char.isAlphanum with
    | '(' :: text => (readFormula layout budget text).bind fun (t, rest) => readCall name t rest
    | rest => readLeaf layout name rest

/-- Read a formula without parentheses around it. -/
def readFormula (layout : Int → Nat × Int) : Nat → List Char → Option (Tree × List Char)
  | 0, _ => none
  | budget + 1, text =>
    match readOperand layout budget text with
    | some (left, ' ' :: sign :: ' ' :: text) =>
      (operation? sign).bind fun op =>
        (readOperand layout budget text).map fun (right, rest) => (.treeTree op left right, rest)
    | result => result

end

/-- The tree of a formula. -/
def read (layout : Int → Nat × Int) (s : String) : Option Tree :=
  match readFormula layout (2 * s.length + 2) s.toList with
  | some (t, []) => some t
  | _ => none

/-! ## Words -/

theorem word_append {p : Char → Bool} {word : List Char} (all : ∀ c ∈ word, p c = true)
    (rest : List Char) (stop : ∀ c ∈ rest.head?, p c = false) :
    (word ++ rest).takeWhile p = word ∧ (word ++ rest).dropWhile p = rest := by
  rw [List.takeWhile_append_of_pos all, List.dropWhile_append_of_pos all]
  cases rest with
  | nil => simp
  | cons c rest => simp [stop c (by simp)]

theorem toNat?_toDigits (n : Nat) : (String.ofList (Nat.toDigits 10 n)).toNat? = some n := by
  rw [← Nat.repr_eq_ofList_toDigits, Nat.toNat?_repr]

variable {layout : Int → Nat × Int} {budget : Nat}

section

variable {name : List Char} (ne : name ≠ []) (word : ∀ c ∈ name, c.isAlphanum = true)

include ne word

/-- What comes behind a word decides how it is read. -/
theorem readOperand_word (rest : List Char) : (∀ c ∈ rest.head?, c.isAlphanum = false) →
    readOperand layout (budget + 1) (name ++ rest) =
      match rest with
      | '(' :: text => (readFormula layout budget text).bind fun (t, rest) => readCall name t rest
      | rest => readLeaf layout name rest := by
  intro stop
  obtain ⟨before, after⟩ := word_append word rest stop
  obtain ⟨c, cs, rfl⟩ := List.exists_cons_of_ne_nil ne
  have letter := word c (by simp)
  rw [List.cons_append] at before after ⊢
  rw [readOperand, before, after]
  -- The first character of a word is neither a parenthesis nor a sign.
  all_goals
    rintro text ⟨⟩
    cases letter

/-- A word that is not followed by a parenthesis is a leaf. -/
theorem readOperand_leaf {rest : List Char}
    (stop : ∀ c ∈ rest.head?, c.isAlphanum = false ∧ c ≠ '(') :
    readOperand layout (budget + 1) (name ++ rest) = readLeaf layout name rest := by
  rw [readOperand_word ne word rest fun c hc => (stop c hc).1]
  split
  next => exact absurd rfl (stop '(' (by simp)).2
  next => rfl

/-- A word that is followed by a parenthesis is a call. -/
theorem readOperand_call (text : List Char) :
    readOperand layout (budget + 1) (name ++ '(' :: text) =
      (readFormula layout budget text).bind fun (t, rest) => readCall name t rest :=
  readOperand_word ne word ('(' :: text) (by simp)

end

/-! ## Reading what is written -/

/-- What may follow an operand. -/
def Delimited (rest : List Char) : Prop :=
  ∀ c ∈ rest.head?, c = ' ' ∨ c = ')' ∨ c = ','

/-- What may follow a formula. -/
def Closed (rest : List Char) : Prop :=
  ∀ c ∈ rest.head?, c = ')' ∨ c = ','

theorem Closed.delimited {rest : List Char} (closed : Closed rest) : Delimited rest :=
  fun c hc => .inr (closed c hc)

theorem Delimited.stop {rest : List Char} (delimited : Delimited rest) :
    ∀ c ∈ rest.head?, c.isAlphanum = false ∧ c ≠ '(' := by
  intro c hc
  rcases delimited c hc with rfl | rfl | rfl <;> decide

/-- An operand that is not followed by a sign is a formula. -/
theorem readFormula_operand {text rest : List Char} {t : Tree} (closed : Closed rest)
    (read : readOperand layout budget text = some (t, rest)) :
    readFormula layout (budget + 1) text = some (t, rest) := by
  rw [readFormula, read]
  split
  next left sign text eq =>
    cases eq
    rcases closed ' ' (by simp) with h | h <;> cases h
  next => rfl

/-- A formula in parentheses is an operand. -/
theorem readOperand_enclosed {text rest : List Char} {t : Tree}
    (read : readFormula layout budget text = some (t, ')' :: rest)) :
    readOperand layout (budget + 1) ('(' :: text) = some (t, rest) := by
  rw [readOperand, read]
  rfl

/-- Two operands with a sign between them are a formula. -/
theorem readFormula_operation {first second rest : List Char} {left right : Tree} (op : BinaryOp)
    (readLeft : readOperand layout budget first =
      some (left, ' ' :: op.symbol.toList ++ ' ' :: second))
    (readRight : readOperand layout budget second = some (right, rest)) :
    readFormula layout (budget + 1) first = some (.treeTree op left right, rest) := by
  rw [readFormula, readLeft]
  cases op <;>
    simp [operation?, BinaryOp.all, BinaryOp.symbol, readRight]

/-- Is a tree read back from its text, whatever follows?  The budget is twice
    the length of the text, since a formula starts with an operand. -/
structure Reads (layout : Int → Nat × Int) (t : Tree) : Prop where
  operand : ∀ {budget : Nat} {rest : List Char}, Delimited rest →
    2 * (t.infixBody.toList ++ rest).length < budget →
    readOperand layout budget (t.infixBody.toList ++ rest) = some (t, rest)
  formula : ∀ {budget : Nat} {rest : List Char}, Closed rest →
    2 * (t.infixText.toList ++ rest).length + 1 < budget →
    readFormula layout budget (t.infixText.toList ++ rest) = some (t, rest)

namespace Reads

/-- A tree that is written without parentheses only has to be an operand. -/
theorem of_simple {t : Tree} (plain : t.Plain layout)
    (simple : ∀ op left right, t ≠ .treeTree op left right)
    (operand : ∀ {budget : Nat} {rest : List Char}, Delimited rest →
      2 * (t.infixBody.toList ++ rest).length ≤ budget →
      readOperand layout (budget + 1) (t.infixBody.toList ++ rest) = some (t, rest)) :
    Reads layout t where
  operand {budget rest} delimited enough := by
    obtain ⟨budget, rfl⟩ := Nat.exists_eq_add_one_of_ne_zero (Nat.ne_zero_of_lt enough)
    exact operand delimited (Nat.lt_succ_iff.mp enough)
  formula {budget rest} closed enough := by
    rw [t.infixText_of_simple plain simple] at enough ⊢
    obtain ⟨budget, rfl⟩ : ∃ b, budget = b + 1 + 1 := ⟨budget - 2, by omega⟩
    exact readFormula_operand closed (operand closed.delimited (by omega))

/-- The operand of a sign is read back with and without its parentheses. -/
theorem signOperand {t : Tree} (reads : Reads layout t) {rest : List Char}
    (delimited : Delimited rest)
    (enough : 2 * ((signOperand t.infixBody).toList ++ rest).length < budget) :
    readOperand layout budget ((Infix.signOperand t.infixBody).toList ++ rest) =
      some (t, rest) := by
  rcases signOperand_cases t.infixBody with eq | eq
  · rw [eq] at enough ⊢
    exact reads.operand delimited enough
  · have text : (Infix.signOperand t.infixBody).toList ++ rest =
        '(' :: (t.infixBody.toList ++ ')' :: rest) := by
      simp [eq]
    rw [text] at enough ⊢
    obtain ⟨budget, rfl⟩ : ∃ b, budget = b + 1 + 1 := ⟨budget - 2, by simp at enough; omega⟩
    have closed : Closed (')' :: rest) := by simp [Closed]
    refine readOperand_enclosed (readFormula_operand closed ?_)
    exact reads.operand closed.delimited (by simp at enough ⊢; omega)

theorem leaf (var : Nat) : Reads layout (.leaf var) :=
  of_simple trivial (by simp) fun {budget rest} delimited _ => by
    have word : ∀ c ∈ 'u' :: Nat.toDigits 10 var, c.isAlphanum = true :=
      List.forall_mem_cons.mpr ⟨by decide, isAlphanum_of_mem_toDigits var⟩
    rw [Tree.toList_infixBody_leaf, readOperand_leaf (by simp) word delimited.stop]
    simp [readLeaf, toNat?_toDigits]

theorem independent : Reads layout .independent :=
  of_simple trivial (by simp) fun delimited _ =>
    readOperand_leaf (List.cons_ne_nil 't' []) (by simp) delimited.stop

theorem slot {index : Int} {var : Nat} {order : Int} (held : layout index = (var, order)) :
    Reads layout (.slot index var order) :=
  of_simple held (by simp) fun {budget rest} delimited _ => by
    have text : (Tree.slot index var order).infixBody.toList ++ rest =
        ['x'] ++ '[' :: (index.repr.toList ++ ']' :: rest) := by
      simp [Tree.toList_infixBody_slot]
    have inside : ∀ c ∈ index.repr.toList, (c != ']') = true := by
      intro c hc
      rcases sign_or_digit_of_mem_repr index c hc with rfl | letter
      · decide
      · exact bne_iff_ne.mpr fun eq => by cases eq ▸ letter
    obtain ⟨before, after⟩ := word_append inside (']' :: rest) (by simp)
    rw [text, readOperand_leaf (by simp) (by simp) (by simp), readLeaf, before, after]
    simp [held]

theorem unary (op : UnaryOp) {child : Tree} (plain : child.Plain layout)
    (reads : Reads layout child) : Reads layout (.unary op child) :=
  of_simple plain (by simp) fun {budget rest} delimited enough => by
    cases sign : op.isSign with
    | true =>
      rcases UnaryOp.eq_of_isSign sign with rfl | rfl
      · rw [Tree.toList_infixBody_uminus, List.cons_append] at enough ⊢
        rw [readOperand, reads.signOperand delimited (by simp at enough ⊢; omega)]
        rfl
      · rw [Tree.toList_infixBody_uplus, List.cons_append] at enough ⊢
        rw [readOperand, reads.signOperand delimited (by simp at enough ⊢; omega)]
        rfl
    | false =>
      have text : (Tree.unary op child).infixBody.toList ++ rest =
          op.name.toList ++ '(' :: (child.infixText.toList ++ ')' :: rest) := by
        simp [Tree.toList_infixBody_call sign]
      have named : readCall op.name.toList child (')' :: rest) = some (.unary op child, rest) := by
        rw [readCall, if_neg op.name_ne_diff, String.ofList_toList, op.ofName?_name]
        rfl
      rw [text] at enough ⊢
      rw [readOperand_call op.name_ne_nil op.isAlphanum_of_mem_name,
        reads.formula (by simp [Closed]) (by simp at enough ⊢; omega)]
      exact named

theorem treeTree (op : BinaryOp) {left right : Tree} (plainLeft : left.Plain layout)
    (plainRight : right.Plain layout) (readsLeft : Reads layout left)
    (readsRight : Reads layout right) : Reads layout (.treeTree op left right) := by
  have plain : (Tree.treeTree op left right).Plain layout := ⟨plainLeft, plainRight⟩
  -- The operation inside of its parentheses.
  have inner : ∀ {budget : Nat} {rest : List Char}, Closed rest →
      2 * ((Tree.treeTree op left right).infixText.toList ++ rest).length + 1 < budget →
      readFormula layout budget ((Tree.treeTree op left right).infixText.toList ++ rest) =
        some (.treeTree op left right, rest) := by
    intro budget rest closed enough
    have text : (Tree.treeTree op left right).infixText.toList ++ rest =
        left.infixBody.toList ++ (' ' :: op.symbol.toList ++ ' ' ::
          (right.infixBody.toList ++ rest)) := by
      simp [Tree.toList_infixText_treeTree plain]
    rw [text] at enough ⊢
    obtain ⟨budget, rfl⟩ : ∃ b, budget = b + 1 := ⟨budget - 1, by omega⟩
    refine readFormula_operation op (readsLeft.operand (by simp [Delimited]) (by omega))
      (readsRight.operand closed.delimited (by simp at enough ⊢; omega))
  refine ⟨fun {budget rest} delimited enough => ?_, inner⟩
  have text : (Tree.treeTree op left right).infixBody.toList ++ rest =
      '(' :: ((Tree.treeTree op left right).infixText.toList ++ ')' :: rest) := by
    simp [Tree.toList_infixBody_treeTree,
      Tree.toList_infixText_treeTree plain]
  rw [text] at enough ⊢
  obtain ⟨budget, rfl⟩ : ∃ b, budget = b + 1 := ⟨budget - 1, by omega⟩
  exact readOperand_enclosed (inner (by simp [Closed]) (by simp at enough ⊢; omega))

theorem derivative (order : Nat) {child : Tree} (plain : child.Plain layout)
    (reads : Reads layout child) : Reads layout (.derivative child order) :=
  of_simple plain (by simp) fun {budget rest} delimited enough => by
    have named : "diff".toList ≠ [] := by simp
    have word : ∀ c ∈ "diff".toList, c.isAlphanum = true := by simp
    have text : (Tree.derivative child order).infixBody.toList ++ rest = "diff".toList ++ '(' ::
        (child.infixText.toList ++
          ((if order = 1 then [] else ',' :: ' ' :: Nat.toDigits 10 order) ++ ')' :: rest)) := by
      simp [Tree.toList_infixBody_derivative]
    have ends : readCall "diff".toList child
        ((if order = 1 then [] else ',' :: ' ' :: Nat.toDigits 10 order) ++ ')' :: rest) =
          some (.derivative child order, rest) := by
      split
      next one => simp [readCall, one]
      next =>
        have digits : ∀ c ∈ Nat.toDigits 10 order, c.isDigit = true := fun c hc =>
          Nat.isDigit_of_mem_toDigits (by decide) (by decide) hc
        obtain ⟨before, after⟩ := word_append digits (')' :: rest) (by simp)
        simp only [List.cons_append, readCall, before, after, toNat?_toDigits]
        rfl
    rw [text] at enough ⊢
    rw [readOperand_call named word, reads.formula (by split <;> simp [Closed])
      (by simp at enough ⊢; omega)]
    exact ends

end Reads

/-- Every plain tree is read back. -/
theorem reads_of_plain {t : Tree} (plain : t.Plain layout) : Reads layout t := by
  induction t with
  | leaf var => exact .leaf var
  | independent => exact .independent
  | constant | valueTree | treeValue => exact plain.elim
  | slot index var order => exact .slot plain
  | unary op child ih => exact .unary op plain (ih plain)
  | treeTree op left right ihl ihr =>
    exact .treeTree op plain.1 plain.2 (ihl plain.1) (ihr plain.2)
  | derivative child order ih => exact .derivative order plain (ih plain)

/-- The formula of a plain tree is read as this tree. -/
theorem read_infixText {t : Tree} (plain : t.Plain layout) : read layout t.infixText = some t := by
  have whole : readFormula layout (2 * t.infixText.length + 2) (t.infixText.toList ++ []) =
      some (t, []) :=
    (reads_of_plain plain).formula (by simp [Closed])
      (by rw [List.append_nil, String.length_toList]; omega)
  rw [List.append_nil] at whole
  rw [read, whole]

example : read (fun _ => (0, 0)) "-(u0 + t)" =
    some (.unary .uminus (.treeTree .plus (.leaf 0) .independent)) := by cbv

end Infix

/-! ## Unambiguous formulas -/

namespace Arena

/-- **Formulas are unambiguous.**  The formula of a plain tree can be read, and
    reading it gives the tree back.  So trees with the same formula are equal. -/
theorem infixText_unambiguous {layout : Int → Nat × Int} {a b : Arena} {root other : Nat}
    (inside : root < a.count) (inside' : other < b.count) (plain : (a.tree root).Plain layout)
    (plain' : (b.tree other).Plain layout) :
    (∃ text, a.infixText root = .ok text ∧ Infix.read layout text = some (a.tree root)) ∧
      (a.infixText root = b.infixText other → a.tree root = b.tree other) := by
  refine ⟨⟨_, infixText_eq inside, Infix.read_infixText plain⟩, fun same => ?_⟩
  rw [infixText_eq inside, infixText_eq inside'] at same
  have text : (a.tree root).infixText = (b.tree other).infixText := by injection same
  have first := Infix.read_infixText plain
  rw [text, Infix.read_infixText plain'] at first
  injection first with eq
  exact eq.symm

/-- Nodes of `-(u + t)` and `-u + t`. -/
def signNodes : Array Node :=
  #[.leaf 0, .independent, .binary .plus (.treeTree 0 1), .unary .uminus 2, .unary .uminus 0,
    .binary .plus (.treeTree 4 1)]

theorem child_lt_signNodes (h : Nat) (node : Node) (hn : signNodes[h]? = some node) :
    ∀ c ∈ node.children, c < h := by
  have all : ∀ h : Fin 6, ∀ c ∈ signNodes[h].children, c < h := by decide
  obtain ⟨inside, rfl⟩ := Array.getElem?_eq_some_iff.mp hn
  exact all ⟨h, inside⟩

/-- Arena with these nodes. -/
def signs : Arena where
  size := 1
  serial := 0
  nodes := signNodes
  infos := #[⟨[0], 0, 1, none⟩, ⟨[0], 0, 0, none⟩, ⟨[0], 1, 1, none⟩, ⟨[0], 2, 1, none⟩,
    ⟨[0], 1, 1, none⟩, ⟨[0], 2, 1, none⟩]
  index := ∅
  values := #[]
  valueIndex := ∅
  child_lt := child_lt_signNodes

theorem infixText_unambiguous_signs :
    (3 < signs.count ∧ 5 < signs.count) ∧
      ((signs.tree 3).Plain fun _ => (0, 0)) ∧ ((signs.tree 5).Plain fun _ => (0, 0)) ∧
      (∃ text, signs.infixText 3 = .ok text ∧
        Infix.read (fun _ => (0, 0)) text = some (signs.tree 3)) ∧
      signs.infixText 3 ≠ signs.infixText 5 := by
  have first : signs.tree 3 = .unary .uminus (.treeTree .plus (.leaf 0) .independent) := by cbv
  have second : signs.tree 5 = .treeTree .plus (.unary .uminus (.leaf 0)) .independent := by cbv
  have inside : 3 < signs.count ∧ 5 < signs.count := by decide
  have plain : (signs.tree 3).Plain fun _ => (0, 0) := by simp [first, Tree.Plain]
  have plain' : (signs.tree 5).Plain fun _ => (0, 0) := by simp [second, Tree.Plain]
  obtain ⟨read, same⟩ := infixText_unambiguous inside.1 inside.2 plain plain'
  refine ⟨inside, plain, plain', read, fun eq => ?_⟩
  have trees := same eq
  rw [first, second] at trees
  cases trees

end Arena

end JetForm
