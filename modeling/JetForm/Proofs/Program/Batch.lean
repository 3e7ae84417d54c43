import JetForm.Program.Field
import JetForm.Proofs.Program.Relation
import JetForm.Proofs.Program.Tensor

/-! # Evaluation of many states at once

    In a call with a tensor of times and a tensor of states each register has the
    shape of what its value depends on: no axes, those of the times, those of the
    states, or all of them.  `Entry.Spreads` relates such a register with that of
    a run at a single time and state, namely those that broadcasting assigns to
    one index of the batch.  The register is repeated to the shape of the batch,
    and there it holds the entry of the other run.

    Failing must not depend on the other entries of a tensor, and it does not:
    arithmetic with a double or a complex number never fails, and truth values
    and words come from constants alone, so that a register of them has a single
    entry.  Hence entries of a register have one kind. -/

namespace JetForm

open Tensor

/-! ## Kinds of results -/

namespace Entry

/-- Doubles and complex numbers are the wide kinds. -/
def Kind.isWide : Kind → Bool
  | .real | .complex => true
  | .truth | .whole => false

theorem Kind.isWide_join (a b : Kind) : (a.join b).isWide = (a.isWide || b.isWide) := by
  cases a <;> cases b <;> rfl

/-- On entries of a wide kind the function does not fail, and the kind of its
    results is wide and depends on the kind of the entries alone. -/
def Uniform (f : Entry → Except Fault Entry) : Prop :=
  ∀ a : Kind, a.isWide = true → ∃ b : Kind, b.isWide = true ∧
    ∀ x : Entry, x.kind = a → ∃ y, f x = .ok y ∧ y.kind = b

theorem kind_combineWide {op : BinaryOp} {x y : Entry}
    (wide : (x.kind.join y.kind).isWide = true) :
    (combineWide op x y).kind = x.kind.join y.kind := by
  unfold combineWide
  generalize x.kind.join y.kind = joined at wide ⊢
  cases joined with
  | real | complex => rfl
  | truth | whole => cases wide

theorem raise_uniform (n : Int) : Uniform (raise · n) := by
  intro a wide
  refine ⟨a, wide, ?_⟩
  rintro x rfl
  cases x with
  | real | complex => exact ⟨_, rfl, rfl⟩
  | truth | whole => cases wide

/-- A binary operation does not fail if one of its operands is wide. -/
theorem combine_uniform (op : BinaryOp) {a b : Kind} (wide : (a.join b).isWide = true) :
    ∃ c : Kind, c.isWide = true ∧ ∀ x y : Entry, x.kind = a → y.kind = b →
      ∃ z, combine op x y = .ok z ∧ z.kind = c := by
  by_cases whole : op = .power ∧ b.isWide = false
  · -- a whole exponent keeps the kind of the base, which is the wide operand
    obtain ⟨rfl, narrow⟩ := whole
    have base : a.isWide = true := by simpa [Kind.isWide_join, narrow] using wide
    refine ⟨a, base, ?_⟩
    rintro x y rfl rfl
    cases x with
    | real | complex =>
      cases y with
      | truth | whole => exact ⟨_, rfl, rfl⟩
      | real | complex => cases narrow
    | truth | whole => cases base
  · refine ⟨a.join b, wide, ?_⟩
    rintro x y rfl rfl
    refine ⟨combineWide op x y, ?_, kind_combineWide wide⟩
    cases op with
    | rdivide => rfl
    | power =>
      cases y with
      | real | complex => rfl
      | truth | whole => exact absurd ⟨rfl, rfl⟩ whole
    | plus | minus | times =>
      cases x <;> cases y <;> first | rfl | cases wide

theorem combine_right_uniform (op : BinaryOp) (y : Entry) : Uniform (combine op · y) := by
  intro a wide
  have joined : (a.join y.kind).isWide = true := by simp [Kind.isWide_join, wide]
  obtain ⟨c, hc, each⟩ := combine_uniform op joined
  exact ⟨c, hc, fun x hx => each x y hx rfl⟩

end Entry

theorem Kernel.kind_onEntry (k : Kernel) {x : Entry} (wide : x.kind.isWide = true) :
    (k.onEntry x).kind = x.kind := by
  unfold Kernel.onEntry
  cases k.invertsArgument <;> cases x <;> first | rfl | cases wide

theorem UnaryOp.onEntry_uniform (op : UnaryOp) : Entry.Uniform op.onEntry := by
  intro a wide
  unfold UnaryOp.onEntry
  cases op.action with
  | magnitude =>
    refine ⟨.real, rfl, ?_⟩
    rintro x rfl
    cases x with
    | real | complex => exact ⟨_, rfl, rfl⟩
    | truth | whole => cases wide
  | negation =>
    refine ⟨a, wide, ?_⟩
    rintro x rfl
    cases x with
    | real | complex => exact ⟨_, rfl, rfl⟩
    | truth | whole => cases wide
  | identity => exact ⟨a, wide, fun x hx => ⟨x, rfl, hx⟩⟩
  | kernel k =>
    refine ⟨a, wide, ?_⟩
    rintro x rfl
    exact ⟨_, rfl, k.kind_onEntry wide⟩

theorem Number.rightOf_uniform {op : BinaryOp} {n : Number} {g : Entry → Except Fault Entry}
    (right : n.rightOf op = .ok g) : Entry.Uniform g := by
  unfold rightOf at right
  split at right
  next n _ =>
    cases right
    exact Entry.raise_uniform n
  next =>
    obtain ⟨y, -, same⟩ := exists_ok_of_bind right
    cases same
    exact Entry.combine_right_uniform _ y

/-! ## Tensors and entries -/

/-- The tensor belongs to the shape of a batch, and its entries have the kind of
    `e`.  An entry of a narrow kind stands alone.  At `place`, if that is given,
    the tensor holds `e`. -/
structure Entry.Spreads (batch : List Nat) (place : Option (List Nat)) (x : Tensor Entry)
    (e : Entry) : Prop where
  regular : x.Regular
  fits : Fits x.shape batch
  kind : ∀ index, Inside x.shape index → (x.get default index).kind = e.kind
  narrow : e.kind.isWide = false → x = .scalar e
  entry : ∀ index ∈ place, x.spread default index = e

section

variable {batch : List Nat} {place : Option (List Nat)}

theorem Entry.spreads_scalar (e : Entry) : Spreads batch place (.scalar e) e := by
  refine ⟨regular_scalar e, nil_fits batch, ?_, fun _ => rfl, fun _ _ => rfl⟩
  intro index inside
  cases inside
  rfl

/-- A tensor that is wide throughout. -/
theorem Entry.spreads_of_wide {x : Tensor Entry} {e : Entry} (regular : x.Regular)
    (fits : Fits x.shape batch) (wide : e.kind.isWide = true)
    (kind : ∀ index, Inside x.shape index → (x.get default index).kind = e.kind)
    (entry : ∀ index ∈ place, x.spread default index = e) : Spreads batch place x e :=
  ⟨regular, fits, kind, fun narrow => absurd (wide.symm.trans narrow) (by simp), entry⟩

theorem Entry.spreads_ofFn {shape : List Nat} (fits : Fits shape batch)
    (inside : ∀ index ∈ place, Inside batch index) {f : List Nat → Entry} {e : Entry}
    (wide : e.kind.isWide = true) (kind : ∀ index, Inside shape index → (f index).kind = e.kind)
    (entry : ∀ index ∈ place, f (project shape index) = e) :
    Spreads batch place (ofFn shape f) e := by
  apply spreads_of_wide (regular_ofFn shape f) fits wide
  · intro index within
    have within : Inside shape index := within
    rw [get_ofFn within]
    exact kind index within
  · intro index hi
    exact (get_ofFn (fits.inside (inside index hi)) f default).trans (entry index hi)

/-- A tensor of doubles. -/
theorem Entry.spreads_real {x : Tensor Float} (regular : x.Regular) (fits : Fits x.shape batch)
    (inside : ∀ index ∈ place, Inside batch index) {e : Float}
    (entry : ∀ index ∈ place, x.spread 0 index = e) :
    Spreads batch place (x.map .real) (.real e) := by
  apply spreads_of_wide (regular.map _) fits rfl
  · intro index within
    rw [get_map regular within _ 0]
    rfl
  · intro index hi
    have held := get_map regular (fits.inside (inside index hi)) Entry.real 0 default
    exact held.trans (congrArg Entry.real (entry index hi))

/-- What is read from one position of the last axis. -/
theorem Entry.spreads_lastAxis {x : Tensor Float} (regular : x.Regular) {shape : List Nat} {n : Nat}
    (axes : x.shape = shape ++ [n]) (fits : Fits shape batch)
    (inside : ∀ index ∈ place, Inside batch index) {k : Nat} (hk : k < n) {e : Float}
    (entry : ∀ index ∈ place, x.get 0 (project shape index ++ [k]) = e) :
    Spreads batch place ((x.map .real).lastAxis default k) (.real e) := by
  have held : ∀ index, Inside shape index →
      (x.map Entry.real).get default (index ++ [k]) = .real (x.get 0 (index ++ [k])) :=
    fun index within => get_map regular (axes ▸ within.snoc hk) Entry.real 0 default
  have axes' : (x.map Entry.real).shape = shape ++ [n] := axes
  rw [lastAxis_eq axes']
  apply spreads_ofFn fits inside rfl
  · intro index within
    rw [held index within]
    rfl
  · intro index hi
    rw [held _ (fits.inside (inside index hi)), entry index hi]

theorem Tensor.mapM_scalar {α β ε : Type} (f : α → Except ε β) (e : α) :
    (scalar e).mapM f = scalar <$> f e := by
  rw [Tensor.mapM, Array.mapM_eq_mapM_toList]
  show (Tensor.mk [] <$> List.toArray <$> [e].mapM f) = _
  rw [List.mapM_cons, List.mapM_nil]
  cases f e <;> rfl

theorem Entries.zipTensors_scalar (f : Entry → Entry → Except Fault Entry) (x y : Entry) :
    zipTensors f (scalar x) (scalar y) = scalar <$> f x y :=
  Tensor.mapM_scalar id (f x y)

/-- Tensors that fit a shape are combined entry by entry.  A failure is that of
    two entries which meet. -/
theorem Entries.ended_zipTensors (f : Entry → Entry → Except Fault Entry) {x y : Tensor Entry}
    (left : Fits x.shape batch) (right : Fits y.shape batch) :
    ∃ common, broadcastShape x.shape y.shape = some common ∧ Fits common batch ∧
      Ended (zipTensors f x y)
        (fun z => z.shape = common ∧ z.Regular ∧ ∀ index, Inside common index →
          f (x.spread default index) (y.spread default index) = .ok (z.get default index))
        fun e => ∃ index, Inside common index ∧
          f (x.spread default index) (y.spread default index) = .error e := by
  obtain ⟨z, zipped, shapes, regular, fits, values⟩ := zip_spread left right default default f
  refine ⟨z.shape, shapes, fits, ?_⟩
  have ended := regular.ended_mapM (β := Entry) id (.error .unevaluable) default
  rw [zipTensors, zipped]
  apply ended.mono
  · rintro w ⟨shape, regular', each⟩
    refine ⟨shape, regular', fun index inside => ?_⟩
    rw [← values index inside (.error .unevaluable)]
    exact each index inside
  · rintro e ⟨index, inside, failed⟩
    refine ⟨index, inside, ?_⟩
    rw [← values index inside (.error .unevaluable)]
    exact failed

theorem Entry.Spreads.kind_spread {x : Tensor Entry} {e : Entry} (spreads : e.Spreads batch place x)
    {common index : List Nat} (fits : Fits x.shape common) (inside : Inside common index) :
    (x.spread default index).kind = e.kind :=
  spreads.kind _ (fits.inside inside)

/-- A function on entries does not depend on the other entries. -/
theorem Entry.Spreads.map {f : Entry → Except Fault Entry} (uniform : Uniform f) {x : Tensor Entry}
    {e : Entry} (spreads : e.Spreads batch place x)
    (inside : ∀ index ∈ place, Inside batch index) :
    EndAlike (Spreads batch place) (x.mapM f) (f e) := by
  -- a narrow entry stands alone, and the function is applied to it in both runs
  cases wide : e.kind.isWide with
  | false =>
    rw [spreads.narrow wide, Tensor.mapM_scalar]
    cases f e with
    | error fault => exact EndAlike.error fault
    | ok e' => exact EndAlike.ok (spreads_scalar e')
  | true =>
    -- no entry of a wide kind makes it fail, so neither run does
    obtain ⟨b, hb, each⟩ := uniform e.kind wide
    obtain ⟨e', he', kind⟩ := each e rfl
    have ended := spreads.regular.ended_mapM f default default
    rw [he']
    cases outcome : x.mapM f with
    | error fault =>
      obtain ⟨index, within, failed⟩ := ended.of_error outcome
      obtain ⟨y, value, -⟩ := each _ (spreads.kind index within)
      rw [failed] at value
      cases value
    | ok y =>
      obtain ⟨shape, regular, values⟩ := ended.of_ok outcome
      refine EndAlike.ok (spreads_of_wide regular (shape ▸ spreads.fits) (kind ▸ hb) ?_ ?_)
      · intro index within
        rw [shape] at within
        obtain ⟨z, value, known⟩ := each _ (spreads.kind index within)
        rw [values index within] at value
        cases value
        rw [known, kind]
      · intro index hi
        have value := values _ (spreads.fits.inside (inside index hi))
        rw [show x.get default _ = e from spreads.entry index hi, he'] at value
        rw [spread, shape]
        exact (Except.ok.inj value).symm

/-- Neither does an operation on the entries of two tensors. -/
theorem Entry.Spreads.zip (op : BinaryOp) {x y : Tensor Entry} {e d : Entry}
    (left : e.Spreads batch place x) (right : d.Spreads batch place y)
    (inside : ∀ index ∈ place, Inside batch index) :
    EndAlike (Spreads batch place) (Entries.zipTensors (combine op) x y) (combine op e d) := by
  cases wide : (e.kind.join d.kind).isWide with
  | false =>
    obtain ⟨le, ri⟩ : e.kind.isWide = false ∧ d.kind.isWide = false := by
      simpa [Kind.isWide_join] using wide
    rw [left.narrow le, right.narrow ri, Entries.zipTensors_scalar]
    cases combine op e d with
    | error fault => exact EndAlike.error fault
    | ok z => exact EndAlike.ok (spreads_scalar z)
  | true =>
    obtain ⟨c, hc, each⟩ := combine_uniform op wide
    obtain ⟨z, hz, kind⟩ := each e d rfl rfl
    obtain ⟨common, shapes, fits, ended⟩ :=
      Entries.ended_zipTensors (combine op) left.fits right.fits
    obtain ⟨fitsX, fitsY⟩ := fits_of_broadcastShape shapes
    have meet : ∀ index, Inside common index → ∃ w,
        combine op (x.spread default index) (y.spread default index) = .ok w ∧ w.kind = c :=
      fun index within => each _ _ (left.kind_spread fitsX within) (right.kind_spread fitsY within)
    rw [hz]
    cases outcome : Entries.zipTensors (combine op) x y with
    | error fault =>
      obtain ⟨index, within, failed⟩ := ended.of_error outcome
      obtain ⟨w, value, -⟩ := meet index within
      rw [failed] at value
      cases value
    | ok w =>
      obtain ⟨shape, regular, values⟩ := ended.of_ok outcome
      subst shape
      refine EndAlike.ok (spreads_of_wide regular fits (kind ▸ hc) ?_ ?_)
      · intro index within
        obtain ⟨w', value, known⟩ := meet index within
        rw [values index within] at value
        cases value
        rw [known, kind]
      · intro index hi
        have value := values _ (fits.inside (inside index hi))
        -- both tensors are read where they would be read without the other
        have readX : x.spread default (project w.shape index) = e := by
          rw [spread, fitsX.project_project fits (inside index hi)]
          exact left.entry index hi
        have readY : y.spread default (project w.shape index) = d := by
          rw [spread, fitsY.project_project fits (inside index hi)]
          exact right.entry index hi
        rw [readX, readY, hz] at value
        exact (Except.ok.inj value).symm

end

/-! ## Cells -/

/-- A cell of the batch and a cell of the run at a single place: the same plain
    number, the same fault, or a tensor that holds the entry. -/
inductive Cell.Spreads (batch : List Nat) (place : Option (List Nat)) :
    Cell (Tensor Entry) → Cell Entry → Prop
  | plain (n : Number) : Spreads batch place (.plain n) (.plain n)
  | entry {x : Tensor Entry} {e : Entry} (spreads : e.Spreads batch place x) :
    Spreads batch place (.entry x) (.entry e)
  | fault (f : Fault) : Spreads batch place (.fault f) (.fault f)

namespace Cell

variable {batch : List Nat} {place : Option (List Nat)}

theorem Spreads.fault? {c : Cell (Tensor Entry)} {d : Cell Entry}
    (spreads : Spreads batch place c d) : c.fault? = d.fault? := by
  cases spreads <;> rfl

theorem spreads_ofExcept {x : Except Fault (Tensor Entry)} {y : Except Fault Entry}
    (alike : EndAlike (Entry.Spreads batch place · ·) x y) :
    Spreads batch place (ofExcept x) (ofExcept y) := by
  cases alike with
  | ok spreads => exact .entry spreads
  | error f => exact .fault f

theorem spreads_ofEntry (y : Except Fault Entry) : EndAlike (Entry.Spreads batch place · ·)
    (Entries.tensor.ofEntry <$> y) (Entries.single.ofEntry <$> y) := by
  cases y with
  | ok e => exact EndAlike.ok (Entry.spreads_scalar e)
  | error f => exact EndAlike.error f

theorem Spreads.toEntry {c : Cell (Tensor Entry)} {d : Cell Entry}
    (spreads : Spreads batch place c d) :
    EndAlike (Entry.Spreads batch place · ·) (c.toEntry .tensor) (d.toEntry .single) := by
  cases spreads with
  | plain n => exact spreads_ofEntry n.toEntry
  | entry spreads => exact EndAlike.ok spreads
  | fault f => exact EndAlike.error f

variable (inside : ∀ index ∈ place, Inside batch index)
include inside

theorem Spreads.unary (op : UnaryOp) {c : Cell (Tensor Entry)} {d : Cell Entry}
    (spreads : Spreads batch place c d) :
    Spreads batch place (Cell.unary .tensor op c) (Cell.unary .single op d) := by
  cases spreads with
  | plain n => exact spreads_ofExcept (spreads_ofEntry (op.onNumber n))
  | entry spreads => exact spreads_ofExcept (spreads.map op.onEntry_uniform inside)
  | fault f => exact .fault f

theorem Spreads.binary (op : BinaryOp) {c c' : Cell (Tensor Entry)} {d d' : Cell Entry}
    (left : Spreads batch place c d) (right : Spreads batch place c' d') :
    Spreads batch place (Cell.binary .tensor op c c') (Cell.binary .single op d d') := by
  have zip : ∀ {x x' : Except Fault (Tensor Entry)} {y y' : Except Fault Entry},
      EndAlike (Entry.Spreads batch place · ·) x y →
      EndAlike (Entry.Spreads batch place · ·) x' y' →
      Spreads batch place (Cell.zip .tensor op x x') (Cell.zip .single op y y') := by
    intro x x' y y' first second
    apply spreads_ofExcept
    apply first.bind
    intro v e he
    apply second.bind
    intro w d hd
    exact he.zip op hd inside
  cases left with
  | fault f => exact .fault f
  | plain n =>
    cases right with
    -- two plain numbers are combined on their own, without an array
    | plain n' =>
      show Spreads batch place (ofNumber (Number.combine op n n')) (ofNumber _)
      cases Number.combine op n n' with
      | ok n => exact .plain n
      | error f => exact .fault f
    | entry spreads => exact zip (spreads_ofEntry n.toEntry) (EndAlike.ok spreads)
    | fault f => exact .fault f
  | entry spreads =>
    cases right with
    | plain n =>
      apply spreads_ofExcept
      cases right : n.rightOf op with
      | error f => exact EndAlike.error f
      | ok g => exact spreads.map (Number.rightOf_uniform right) inside
    | entry spreads' => exact zip (EndAlike.ok spreads) (EndAlike.ok spreads')
    | fault f => exact .fault f

end Cell

/-! ## External functions -/

/-- The values at the times of a tensor are those at each time by itself. -/
def Law.Elementwise (law : Law) : Prop :=
  ∀ t : Tensor Entry, law.onTensor t = t.mapM law.onEntry

/-- The functions are the laws that act so. -/
theorem Law.elementwise_iff {law : Law} : law.Elementwise ↔ ∃ f, law.function? = some f := by
  constructor
  · intro elementwise
    cases law with
    | polynomial | step | constant | kernel => exact ⟨_, rfl⟩
    | greatest =>
      -- the greatest of a single time exists, but a time by itself has none
      have single := elementwise ⟨[1], #[.real 0]⟩
      rw [Tensor.mapM, Array.mapM_eq_mapM_toList] at single
      cases single
    | inert type serial =>
      -- no time at all is asked for its value, but the call fails
      have empty := elementwise ⟨[0], #[]⟩
      rw [Tensor.mapM, Array.mapM_eq_mapM_toList] at empty
      cases empty
  · rintro ⟨f, function⟩ t
    have onTensor : law.onTensor t = .ok (t.map fun x => .real (f x.toFloat)) := by
      cases law <;> simp [Law.onTensor, function]
    have onEntry : law.onEntry = fun x => pure (.real (f x.toFloat)) := by
      funext x
      cases law <;> simp [Law.onEntry, function] <;> rfl
    rw [onTensor, onEntry, Tensor.mapM, Array.mapM_pure]
    rfl

theorem Law.Elementwise.uniform {law : Law} (elementwise : law.Elementwise) :
    Entry.Uniform law.onEntry := by
  obtain ⟨f, function⟩ := Law.elementwise_iff.mp elementwise
  intro a _
  refine ⟨.real, rfl, fun x _ => ⟨.real (f x.toFloat), ?_, rfl⟩⟩
  cases law <;> simp [Law.onEntry, function]

/-! ## Programs -/

namespace Program

/-- What is read besides registers is among the symbols that are listed. -/
def Complete (p : Program) : Prop :=
  ∀ x, p.Reads x → (∃ i, x = .register i) ∨ p.Lists x

/-- The external functions that are listed act on each time by itself. -/
def Elementwise (p : Program) : Prop :=
  ∀ h f, (h, .external f) ∈ p.constants → f.law.Elementwise

/-- A program that trees are flattened into is complete. -/
theorem ofTrees_complete {a : Arena} {leafSlot : Nat → Option Int} {roots : List Nat}
    (inside : ∀ r ∈ roots, r < a.count) {p : Program}
    (flattened : ofTrees a roots leafSlot = .ok p) : p.Complete := by
  obtain ⟨operations, flat⟩ := flattens_of_ofTrees inside flattened
  intro x reads
  by_cases register : ∃ i, x = .register i
  · exact Or.inl register
  · have symbol : ∀ i, x ≠ .register i := fun i same => register ⟨i, same⟩
    exact Or.inr ((flat.lists x).mpr (flat.mentions_of_reads symbol reads))

variable {p : Program} {batch : List Nat} {place : Option (List Nat)}

/-- A run with tensors and one at a single place go side by side. -/
theorem abreast_of_spreads (complete : p.Complete) (elementwise : p.Elementwise)
    (inside : ∀ index ∈ place, Inside batch index) {t : Tensor Entry} {e : Entry}
    (time : e.Spreads batch place t) {state : Int → Cell (Tensor Entry)} {state' : Int → Cell Entry}
    (states : ∀ s ∈ p.slots, (state s).Spreads batch place (state' s)) :
    p.Abreast (fun _ v => v) (Cell.Spreads batch place) (Cell.meaning .tensor t state)
      (Cell.meaning .single e state') where
  unary op c d spreads := spreads.unary inside op
  binary op c c' d d' left right := left.binary inside op right
  time := .entry time
  state s reads := by
    rcases complete _ reads with ⟨i, register⟩ | listed
    · cases register
    · exact states s listed
  value h v known := by
    have listed : (h, v) ∈ p.constants := by
      rcases known with reads | listed
      · rcases complete _ reads with ⟨i, register⟩ | listed
        · cases register
        · exact listed
      · exact listed
    cases v with
    | number n => exact .plain n
    | external f =>
      have lawful := elementwise h f listed
      show Cell.Spreads batch place (Cell.ofExcept (f.law.onTensor t)) (Cell.ofExcept _)
      rw [lawful t]
      exact Cell.spreads_ofExcept (time.map lawful.uniform inside)

end Program

/-! ## Outputs -/

theorem Entry.toReal_of_kind {x y : Entry} (kinds : x.kind = y.kind) {e : Fault}
    (failed : x.toReal = .error e) : y.toReal = .error e := by
  cases x with
  | complex z =>
    cases y with
    | complex w => exact failed
    | truth | whole | real => cases kinds
  | truth | whole | real => cases failed

theorem Entry.toReal_error {x : Entry} {e : Fault} (failed : x.toReal = .error e) :
    e = .complexOutput := by
  cases x with
  | complex z => exact (Except.error.inj failed).symm
  | truth | whole | real => cases failed

/-- An output with zero added is the result at a single place. -/
theorem Evaluation.toFloat_of_sum {c : Cell Entry} {e : Entry}
    (sum : (c.toEntry .single >>= fun x => Entry.combine .plus x (.real 0)) = .ok e) :
    e.toFloat = Evaluation.double.result c := by
  dsimp only [Evaluation.double]
  cases entry : c.toEntry .single with
  | error f =>
    rw [entry] at sum
    cases sum
  | ok x =>
    rw [entry] at sum
    cases x with
    | truth | whole | real | complex =>
      cases sum
      rfl

namespace VectorField

/-- What a call does with its rows. -/
def stackRows (rows : Except Fault (List (Tensor Entry))) : Except Fault (Tensor Entry) := do
  match ← rows with
  | [] => .error .shapes
  | row :: rows => return Tensor.stack row.shape default (row :: rows)

theorem stackOutputs_eq (batch : List Nat) (outputs : List (Cell (Tensor Entry))) :
    stackOutputs batch outputs = stackRows (outputs.mapM fun c => c.toEntry .tensor >>= fun x =>
      Entries.zipTensors (Entry.combine .plus) x (Tensor.ofFn batch fun _ => Entry.real 0)) := by
  unfold stackOutputs stackRows
  dsimp only
  congr 1
  funext rows
  cases rows <;> rfl

/-- The same for the entries of a single place. -/
def realEntries (entries : Except Fault (List Entry)) : Except Fault (List Float) := do
  match ← entries with
  | [] => .error .shapes
  | e :: es => (e :: es).mapM Entry.toReal

section

variable {batch : List Nat} {place : Option (List Nat)}
  (inside : ∀ index ∈ place, Inside batch index)
include inside

/-- The tensor `row` has the shape of the batch and holds `e` at the place. -/
def IsRow (batch : List Nat) (place : Option (List Nat)) (row : Tensor Entry) (e : Entry) : Prop :=
  e.Spreads batch place row ∧ row.shape = batch

/-- Adding zeros brings an output to the shape of the batch. -/
theorem row_alike {c : Cell (Tensor Entry)} {d : Cell Entry} (spreads : c.Spreads batch place d) :
    EndAlike (IsRow batch place)
      (c.toEntry .tensor >>= fun x =>
        Entries.zipTensors (Entry.combine .plus) x (Tensor.ofFn batch fun _ => Entry.real 0))
      (d.toEntry .single >>= fun e => Entry.combine .plus e (.real 0)) := by
  have zero : (Entry.real 0).Spreads batch place (Tensor.ofFn batch fun _ => Entry.real 0) :=
    Entry.spreads_ofFn (fits_refl batch) inside rfl (fun _ _ => rfl) fun _ _ => rfl
  apply spreads.toEntry.bind
  intro x e he
  apply (he.zip .plus zero inside).and_left
  intro row run
  obtain ⟨common, shapes, -, ended⟩ :=
    Entries.ended_zipTensors (Entry.combine .plus) he.fits zero.fits
  obtain ⟨shape, -, -⟩ := ended.of_ok run
  have whole : broadcastShape x.shape batch = some common := shapes
  rw [he.fits.broadcastShape_eq] at whole
  rw [shape, Option.some.inj whole]

/-- Stacked rows are real where the entries are, and in the row of the place
    stand the entries. -/
theorem ended_stack {rows : List (Tensor Entry)} {es : List Entry}
    (related : List.Forall₂ (IsRow batch place) rows es) :
    Ended ((Tensor.stack batch default rows).mapM Entry.toReal)
      (fun y => y.Regular ∧ y.shape = batch ++ [es.length] ∧
        ∀ index ∈ place, es.mapM Entry.toReal = .ok (y.row 0 es.length index).toList)
      fun e => es.mapM Entry.toReal = .error e := by
  have length : rows.length = es.length := related.length_eq
  have shape : (Tensor.stack batch default rows).shape = batch ++ [es.length] := by
    rw [← length]
    rfl
  -- an entry of the stack is one of the rows
  have entry : ∀ before k, Inside batch before → k < es.length → ∃ row e, es[k]? = some e ∧
      (Tensor.stack batch default rows).get default (before ++ [k]) = row.get default before ∧
      IsRow batch place row e := by
    intro before k within hk
    obtain ⟨row, listed, known⟩ := exists_of_forall₂_right related (List.getElem?_eq_getElem hk)
    exact ⟨row, es[k], List.getElem?_eq_getElem hk, get_stack listed within default, known⟩
  have regular : (Tensor.stack batch default rows).Regular := regular_ofFn ..
  have ended := regular.ended_mapM Entry.toReal default 0
  apply ended.mono
  · rintro y ⟨same, regular', values⟩
    refine ⟨regular', same.trans shape, ?_⟩
    intro index hi
    rw [mapM_eq_ok_iff, List.forall₂_iff_get]
    refine ⟨by simp, ?_⟩
    intro k hk hk'
    obtain ⟨row, e, listed, held, spreads, size⟩ := entry index k (inside index hi) hk
    have value := values (index ++ [k]) (shape ▸ (inside index hi).snoc hk)
    have at_ : row.get default index = e := by
      rw [← spread_self (size.symm ▸ inside index hi)]
      exact spreads.entry index hi
    rw [held, at_] at value
    rw [List.getElem?_eq_getElem hk] at listed
    rw [List.get_eq_getElem, Option.some.inj listed, value]
    simp [Tensor.row]
  · rintro e ⟨index, within, failed⟩
    rw [shape] at within
    obtain ⟨before, k, rfl, within, hk⟩ := within.exists_snoc
    obtain ⟨row, e', listed, held, spreads, size⟩ := entry before k within hk
    rw [held] at failed
    have kinds := spreads.kind before (size.symm ▸ within)
    have failed' := Entry.toReal_of_kind kinds failed
    have each : Ended (es.mapM Entry.toReal)
        (List.Forall₂ (fun x y => Entry.toReal x = .ok y) es) (· = .complexOutput) :=
      Ended.mapM fun x _ => Ended.intro (fun _ => id) fun _ => Entry.toReal_error
    cases outcome : es.mapM Entry.toReal with
    | error e'' => rw [each.of_error outcome, Entry.toReal_error failed]
    | ok ys =>
      obtain ⟨y, -, value⟩ :=
        exists_mem_of_forall₂_left (each.of_ok outcome) (List.mem_of_getElem? listed)
      rw [failed'] at value
      cases value

/-- Stacking ends as the entries do, if there are any. -/
theorem ended_rows {rows : Except Fault (List (Tensor Entry))} {es : Except Fault (List Entry)}
    (alike : EndAlike (List.Forall₂ (IsRow batch place)) rows es) :
    Ended (do (← stackRows rows).mapM Entry.toReal)
      (fun y => y.Regular ∧ ∃ es', es = .ok es' ∧ y.shape = batch ++ [es'.length] ∧
        ∀ index ∈ place, realEntries es = .ok (y.row 0 es'.length index).toList)
      fun e => realEntries es = .error e := by
  cases alike with
  | error e => rfl
  | ok related =>
    cases related with
    | nil => rfl
    | @cons row e rows es first rest =>
      show Ended ((Tensor.stack row.shape default (row :: rows)).mapM Entry.toReal) _ _
      rw [first.2]
      apply (ended_stack inside (List.Forall₂.cons first rest)).mono
      · rintro y ⟨regular, shape, values⟩
        exact ⟨regular, e :: es, rfl, shape, values⟩
      · exact fun _ => id

end

/-! ## Single states -/

/-- The values at a time and a state by themselves, without tensors. -/
def point (f : VectorField) (t : Float) (x : Vector Float f.size) : Except Fault (List Float) :=
  let m := Evaluation.double.meaning t fun s => x[s.toNat]?.getD t
  match f.program.fault? m with
  | some e => .error e
  | none => realEntries ((f.program.run m).mapM fun y =>
      y.toEntry .single >>= fun e => Entry.combine .plus e (.real 0))

/-- Adding zero makes the entry of a cell a double if it is real. -/
theorem result_eq {c : Cell Entry} {e : Entry} {y : Float}
    (sum : (c.toEntry .single >>= fun e => Entry.combine .plus e (.real 0)) = .ok e)
    (real : e.toReal = .ok y) : Evaluation.double.result c = y := by
  rw [← Evaluation.toFloat_of_sum sum]
  cases e with
  | truth | whole | real => exact Except.ok.inj real
  | complex => cases real

theorem results_eq {cs : List (Cell Entry)} {ys : List Float} (values : realEntries
      (cs.mapM fun c => c.toEntry .single >>= fun e => Entry.combine .plus e (.real 0)) = .ok ys) :
    cs.map Evaluation.double.result = ys := by
  cases sums : cs.mapM fun c => c.toEntry .single >>= fun e => Entry.combine .plus e (.real 0) with
  | error e =>
    rw [sums] at values
    cases values
  | ok es =>
    rw [sums] at values
    have reals : es.mapM Entry.toReal = .ok ys := by
      cases es with
      | nil => cases values
      | cons e es => exact values
    rw [mapM_eq_ok_iff] at sums reals
    clear values
    induction sums generalizing ys with
    | nil =>
      cases reals
      rfl
    | cons sum _ ih =>
      cases reals with
      | cons real rest => exact congrArg₂ List.cons (result_eq sum real) (ih rest)

/-- Where a field has values, they are those that the integrators and the search
    for a zero compute with. -/
theorem eval_of_point (f : VectorField) {t : Float} {x : Vector Float f.size} {ys : List Float}
    (values : f.point t x = .ok ys) : (f.eval .double t x).toList = ys := by
  unfold point at values
  dsimp only at values
  split at values
  next => cases values
  next => rw [VectorField.eval, Vector.toList_mk, List.toList_toArray, results_eq values]

section

variable (f : VectorField) (complete : f.program.Complete) (elementwise : f.program.Elementwise)
include complete elementwise

/-- A call ends as the evaluation at each place of the batch does. -/
theorem ended_call {t x : Tensor Float} (ht : t.Regular) (hx : x.Regular)
    {before batch : List Nat} (axes : x.shape = before ++ [f.size])
    (common : broadcastShape t.shape before = some batch) (place : Option (List Nat))
    (inside : ∀ index ∈ place, Inside batch index) (t₀ : Float) (x₀ : Vector Float f.size)
    (time : ∀ index ∈ place, t.spread 0 index = t₀)
    (state : ∀ index ∈ place, x.row 0 f.size (project before index) = x₀) :
    Ended (f.call t x)
      (fun y => y.Regular ∧ y.shape = batch ++ [f.size] ∧
        ∀ index ∈ place, f.point t₀ x₀ = .ok (y.row 0 f.size index).toList)
      fun e => ∃ e', e = .fault e' ∧ f.point t₀ x₀ = .error e' := by
  obtain ⟨fitsT, fitsX⟩ := fits_of_broadcastShape common
  have shape : f.checkShape x.shape = .ok () := by simp [checkShape, axes]
  have before_eq : x.shape.dropLast = before := by simp [axes]
  have states : ∀ s ∈ f.program.slots,
      Cell.Spreads batch place (.entry ((x.map Entry.real).lastAxis default s.toNat))
        (.entry (.real (x₀[s.toNat]?.getD t₀))) := by
    intro s hs
    have hk : s.toNat < f.size := by
      have := f.slots_within s hs
      omega
    apply Cell.Spreads.entry
    apply Entry.spreads_lastAxis hx axes fitsX inside hk
    intro index hi
    rw [← state index hi]
    simp [Tensor.row, hk]
  -- both runs meet the same faults, and their outputs become rows and entries
  have abreast := Program.abreast_of_spreads complete elementwise inside
    (Entry.spreads_real ht fitsT inside time) states
  have faults := abreast.fault? (fun _ _ => rfl) fun _ _ => Cell.Spreads.fault?
  have outputs := EndAlike.mapM abreast.run fun _ _ => row_alike inside
  rw [Program.withValues_same] at faults outputs
  have length : ∀ es, (f.program.run (Cell.meaning .single (.real t₀) fun s =>
      .entry (.real (x₀[s.toNat]?.getD t₀)))).mapM (fun y =>
        y.toEntry .single >>= fun e => Entry.combine .plus e (.real 0)) = .ok es →
      es.length = f.size := by
    intro es run
    rw [← (mapM_eq_ok_iff.mp run).length_eq, Program.run, List.length_map, f.length_outputs]
  unfold call point
  dsimp only [Evaluation.double]
  rw [shape, faults, before_eq, common]
  cases f.program.fault? (Cell.meaning .single (.real t₀) fun s =>
      .entry (.real (x₀[s.toNat]?.getD t₀))) with
  | some e => exact ⟨e, rfl, rfl⟩
  | none =>
    have ended := ended_rows inside outputs
    rw [← stackOutputs_eq] at ended
    show Ended (Except.mapError Error.fault (stackOutputs batch _ >>= fun y => y.mapM Entry.toReal))
      _ _
    cases outcome : stackOutputs batch (f.program.run (Cell.meaning .tensor (t.map .real) fun s =>
        .entry ((x.map .real).lastAxis default s.toNat))) >>= fun y => y.mapM Entry.toReal with
    | error e => exact ⟨e, rfl, ended.of_error outcome⟩
    | ok y =>
      obtain ⟨regular, es, run, axes, values⟩ := ended.of_ok outcome
      rw [length es run] at axes values
      exact ⟨regular, axes, values⟩

/-- A call at a single state gives the values there. -/
theorem call_single (t : Float) (x : Vector Float f.size) :
    f.call (.scalar t) (.ofVector x) =
      ((f.point t x).map fun ys => ⟨[f.size], ys.toArray⟩).mapError .fault := by
  have axes : (ofVector x).shape = [] ++ [f.size] := rfl
  have common : broadcastShape (scalar t).shape [] = some [] := rfl
  have ended := ended_call f complete elementwise (regular_scalar t) (regular_ofVector x) axes common
    (some []) (by simp [Inside]) t x (fun _ _ => rfl) fun index hi => by
      cases hi
      ext k hk
      simp [Tensor.row, project, get_ofVector]
  cases outcome : f.call (.scalar t) (.ofVector x) with
  | error e =>
    obtain ⟨e', rfl, failed⟩ := ended.of_error outcome
    rw [failed]
    rfl
  | ok y =>
    obtain ⟨regular, shape, values⟩ := ended.of_ok outcome
    rw [values [] rfl]
    exact congrArg Except.ok ((regular.eq_ofVector shape 0).trans (ofVector_toList _).symm)

/-- They are the values that the integrators and the search for a zero compute
    with. -/
theorem eval_of_call_single {t : Float} {x : Vector Float f.size} {y : Tensor Float}
    (run : f.call (.scalar t) (.ofVector x) = .ok y) : y = .ofVector (f.eval .double t x) := by
  rw [call_single f complete elementwise] at run
  cases values : f.point t x with
  | error e =>
    rw [values] at run
    cases run
  | ok ys =>
    rw [values] at run
    cases run
    rw [← ofVector_toList, eval_of_point f values]

end

end VectorField

end JetForm
