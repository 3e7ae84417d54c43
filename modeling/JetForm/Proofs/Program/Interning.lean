import JetForm.Proofs.Program.Revaluation
import JetForm.Proofs.Tree.Sharing

/-! # What sharing a constant does to evaluators

    A value is stored once for each key, and the key of a double does not tell
    zero from minus zero.  All else it tells apart: real values with one key are
    the same up to their origin, or they are the two zeros (`bare_or_opposite`).

    The first kind of sharing cannot be seen.  The second one can: any arena can
    build the quotient of the time and a stored value, and at time one the two
    zeros give the two infinities (`not_behaves`).  So a constant behaves as the
    value that was asked for if and only if the other zero was not stored before. -/

namespace JetForm

/-! ## The two zeros -/

open Float.Model in
/-- A double that equals zero is one of the two zeros. -/
theorem eq_zero_or_neg_zero {x : Float} (zero : (x == 0) = true) : x = 0 ∨ x = -0 := by
  -- comparing goes by the unpacked form, where only a zero is equal to zero
  have compare : (x.toModel.unpack.compare (.zero .positive) == some .eq) = true := zero
  have side : ∃ s, x.toModel.unpack = .zero s := by
    cases value : x.toModel.unpack with
    | zero s => exact ⟨s, rfl⟩
    | finite s | infinity s =>
      rw [value] at compare
      cases s <;> cases compare
    | notANumber =>
      rw [value] at compare
      cases compare
  obtain ⟨s, side⟩ := side
  obtain ⟨⟨bits, valid⟩⟩ := x
  simp only [unpack, UnpackedFloat.unpack] at side
  split at side
  next => split at side <;> cases side
  next =>
  split at side
  next exponent =>
    split at side
    next mantissa =>
      have low : bits.toNat % 2 ^ 52 = 0 := by
        have := congrArg BitVec.toNat mantissa
        simpa [UnpackedFloat.unpackMantissa, BitVec.extractLsb_toNat, Format.binary64] using this
      have high : bits.toNat / 2 ^ 52 % 2 ^ 11 = 0 := by
        have := congrArg BitVec.toNat exponent
        simpa [UnpackedFloat.unpackExponent, BitVec.extractLsb_toNat, Format.binary64,
          Nat.shiftRight_eq_div_pow] using this
      -- only the bit of the sign is left
      have bound := bits.toNat_lt
      have value : bits.toNat = 0 ∨ bits.toNat = 2 ^ 63 := by omega
      rcases value with value | value
      · obtain rfl : bits = 0 := UInt64.toNat_inj.mp value
        exact Or.inl rfl
      · obtain rfl : bits = 0x8000000000000000 := UInt64.toNat_inj.mp value
        exact Or.inr rfl
    next => cases side
  next => cases side

/-- The doubles are the two zeros. -/
def AreOppositeZeros (x y : Float) : Prop :=
  x = 0 ∧ y = -0 ∨ x = -0 ∧ y = 0

theorem AreOppositeZeros.canonicalZero {x y : Float} (opposite : AreOppositeZeros x y) :
    Number.canonicalZero x = Number.canonicalZero y := by
  rcases opposite with ⟨rfl, rfl⟩ | ⟨rfl, rfl⟩ <;> decide +kernel

theorem AreOppositeZeros.isNaN {x y : Float} (opposite : AreOppositeZeros x y) :
    x.isNaN = false ∧ y.isNaN = false := by
  rcases opposite with ⟨rfl, rfl⟩ | ⟨rfl, rfl⟩ <;> decide +kernel

/-- Equal doubles are the same, but for the sign of zero. -/
theorem eq_or_opposite {x y : Float} (same : Number.canonicalZero x = Number.canonicalZero y) :
    x = y ∨ AreOppositeZeros x y := by
  unfold Number.canonicalZero at same
  have zero : ((0 : Float) == 0) = true := by decide +kernel
  cases hx : x == 0 with
  | false =>
    cases hy : y == 0 with
    | false =>
      rw [hx, hy] at same
      exact Or.inl same
    | true =>
      rw [hx, hy] at same
      have same : x = 0 := same
      rw [same, zero] at hx
      cases hx
  | true =>
    cases hy : y == 0 with
    | false =>
      rw [hx, hy] at same
      have same : 0 = y := same
      rw [← same, zero] at hy
      cases hy
    | true =>
      rcases eq_zero_or_neg_zero hx with rfl | rfl <;>
        rcases eq_zero_or_neg_zero hy with rfl | rfl
      · exact Or.inl rfl
      · exact Or.inr (Or.inl ⟨rfl, rfl⟩)
      · exact Or.inr (Or.inr ⟨rfl, rfl⟩)
      · exact Or.inl rfl

namespace Value

/-- The values are zeros of one type and of opposite signs. -/
def OppositeZeros : Value → Value → Prop
  | .number (.double x _), .number (.double y _) => AreOppositeZeros x y
  | .number (.wide (.real x) _), .number (.wide (.real y) _) => AreOppositeZeros x y
  | _, _ => False

/-- Opposite zeros are one constant. -/
theorem OppositeZeros.key {v w : Value} (opposite : v.OppositeZeros w) : v.key = w.key := by
  unfold OppositeZeros at opposite
  split at opposite
  next x o y o' =>
    show number (.double _ (if x.isNaN then o else .plain)) =
      number (.double _ (if y.isNaN then o' else .plain))
    rw [opposite.canonicalZero, opposite.isNaN.1, opposite.isNaN.2]
    rfl
  next x o y o' =>
    show number (.wide (.real _) (if x.isNaN then o else .plain)) =
      number (.wide (.real _) (if y.isNaN then o' else .plain))
    rw [opposite.canonicalZero, opposite.isNaN.1, opposite.isNaN.2]
    rfl
  next => exact opposite.elim

theorem OppositeZeros.bare_ne {v w : Value} (opposite : v.OppositeZeros w) : v.bare ≠ w.bare := by
  have signs : ∀ x y : Float, AreOppositeZeros x y → x ≠ y := by
    rintro x y (⟨rfl, rfl⟩ | ⟨rfl, rfl⟩) <;> decide +kernel
  unfold OppositeZeros at opposite
  split at opposite
  next x o y o' =>
    intro same
    exact signs x y opposite (Number.double.inj (Value.number.inj same)).1
  next x o y o' =>
    intro same
    exact signs x y opposite (Entry.real.inj (Number.wide.inj (Value.number.inj same)).1)
  next => exact opposite.elim

/-- Nothing else is. -/
theorem bare_or_opposite {v w : Value} (real : v.isReal = true) (same : v.key = w.key) :
    v.bare = w.bare ∨ v.OppositeZeros w := by
  -- the key tells the kinds of values apart, and within a kind the values but for zeros
  cases v with
  | external f =>
    cases w with
    | external f' => exact Or.inl (congrArg bare same)
    | number => cases same
  | number n =>
    cases w with
    | external => cases same
    | number m =>
      have same : n.key = m.key := Value.number.inj same
      cases n with
      | bool b =>
        cases m with
        | bool => exact Or.inl (congrArg bare (congrArg number same))
        | int | double | complex | wide => cases same
      | int k =>
        cases m with
        | int => exact Or.inl (congrArg bare (congrArg number same))
        | bool | double | complex | wide => cases same
      | complex z => cases real
      | double x o =>
        cases m with
        | double y o' =>
          obtain ⟨doubles, -⟩ := Number.double.inj same
          apply (eq_or_opposite doubles).imp_left
          rintro rfl
          rfl
        | bool | int | complex | wide => cases same
      | wide x o =>
        cases m with
        | wide y o' =>
          obtain ⟨entries, -⟩ := Number.wide.inj same
          cases x with
          | complex z | truth b => cases real
          | whole k =>
            cases y with
            | whole =>
              cases entries
              exact Or.inl rfl
            | truth | real | complex => cases entries
          | real x =>
            cases y with
            | real y =>
              apply (eq_or_opposite (Entry.real.inj entries)).imp_left
              rintro rfl
              rfl
            | truth | whole | complex => cases entries
        | bool | int | double | complex => cases same

/-- A number that is a zero of a given sign, as entries of arrays see it. -/
def IsZero (v : Value) (x : Float) : Prop :=
  ∃ n : Number, v = .number n ∧ n.isZero = true ∧ n.rightOf .rdivide =
    .ok fun y => Entry.combine .rdivide y (.real x)

theorem OppositeZeros.exists_isZero {v w : Value} (opposite : v.OppositeZeros w) :
    ∃ x y, v.IsZero x ∧ w.IsZero y ∧ AreOppositeZeros x y := by
  have zeros : ∀ x y : Float, AreOppositeZeros x y → (x == 0) = true ∧ (y == 0) = true := by
    rintro x y (⟨rfl, rfl⟩ | ⟨rfl, rfl⟩) <;> decide +kernel
  have wide : ∀ (x : Float) (o : Origin), (x == 0) = true → (Number.wide (.real x) o).isZero = true := by
    intro x o zero
    show (!(x != 0)) = true
    rw [bne, zero]
    rfl
  unfold OppositeZeros at opposite
  split at opposite
  next x o y o' =>
    obtain ⟨hx, hy⟩ := zeros x y opposite
    exact ⟨x, y, ⟨_, rfl, hx, rfl⟩, ⟨_, rfl, hy, rfl⟩, opposite⟩
  next x o y o' =>
    obtain ⟨hx, hy⟩ := zeros x y opposite
    exact ⟨x, y, ⟨_, rfl, wide x o hx, rfl⟩, ⟨_, rfl, wide y o' hy, rfl⟩, opposite⟩
  next => exact opposite.elim

end Value

/-! ## Telling zeros apart -/

/-- An evaluator without a name hides no function that its body calls. -/
theorem ScalarFunction.isShadowing_unnamed {f : ScalarFunction} (name : f.name = "") : f.isShadowing = false := by
  have never : ∀ op : UnaryOp, (op.name == "") = false := fun op => by cases op <;> rfl
  unfold ScalarFunction.isShadowing
  rw [name, Array.any_eq_false']
  intro i _
  cases i with
  | unary op => simp [never]
  | binary => simp

/-- An evaluator adds its output to zeros of the shape of the time. -/
theorem ScalarFunction.call_of_entries {f : ScalarFunction} (name : f.name = "") {t y : Float}
    (outputs : ∀ state, f.program.entries .tensor
      (Cell.meaning .tensor (.scalar (.real t)) state) = .ok [.scalar (.real y)]) :
    f.call (.scalar t) none = .ok (.scalar (y + 0)) := by
  have time : Tensor.map Entry.real (.scalar t) = .scalar (.real t) := by
    simp [Tensor.map, Tensor.scalar]
  have start : Tensor.map (fun _ => Entry.real 0) (.scalar t) = .scalar (.real 0) := by
    simp [Tensor.map, Tensor.scalar]
  have sum : Entries.zipTensors (Entry.combine .plus) (.scalar (.real y)) (.scalar (.real 0)) =
      .ok (.scalar (.real (y + 0))) := Entries.zipTensors_scalar ..
  unfold ScalarFunction.call ScalarFunction.entries
  dsimp only
  rw [ScalarFunction.isShadowing_unnamed name, time, start, outputs]
  show Except.mapError Error.fault (Except.bind (Entries.zipTensors (Entry.combine .plus)
    (.scalar (.real y)) (.scalar (.real 0))) fun y => y.mapM Entry.toReal) = _
  rw [sum]
  show Except.mapError Error.fault (Tensor.mapM Entry.toReal (.scalar (.real (y + 0)))) = _
  rw [Tensor.mapM_scalar]
  rfl

namespace Arena

variable {a b c : Arena}

theorem value_withValue {h : Nat} (inside : h < a.values.size) (v : Value) :
    (a.withValue h v).value h = v := by
  simp [value, withValue, inside]

/-- What is put back changes nothing. -/
theorem withValue_self {h : Nat} (inside : h < a.values.size) : a.withValue h (a.value h) = a := by
  have same : a.values.setIfInBounds h (a.value h) = a.values := by
    apply Array.ext_getElem?
    intro i
    by_cases eq : h = i
    · subst eq
      simp [value, inside]
    · simp [eq]
  rw [withValue, same]

/-- What the quotient of the time and a zero means at time one. -/
theorem denote_quotient {r t i : Nat}
    (hr : c.node? r = some (.binary .rdivide (.treeValue t i))) (ht : c.node? t = some .independent)
    {x : Float} (zero : (c.value i).IsZero x) (state : Int → Cell (Tensor Entry)) :
    (c.denote (Cell.reading .tensor (.scalar (.real 1)) state Program.ownSlot) r).toEntry .tensor =
      .ok (.scalar (.real (1 / x))) := by
  obtain ⟨n, value, -, right⟩ := zero
  rw [denote, tree_eq hr]
  show (Cell.binary .tensor .rdivide ((c.tree t).denote _) (Cell.ofValue .tensor _ _)).toEntry _ = _
  rw [tree_eq ht, value]
  show (Cell.ofExcept (n.rightOf .rdivide >>= fun f =>
    Tensor.mapM f (Tensor.scalar (Entry.real 1)))).toEntry _ = _
  rw [right]
  show (Cell.ofExcept (Tensor.mapM _ (Tensor.scalar (Entry.real 1)))).toEntry _ = _
  rw [Tensor.mapM_scalar]
  rfl

/-- Its evaluator tells the sign of the zero. -/
theorem callFunction_quotient {r t i : Nat}
    (hr : c.node? r = some (.binary .rdivide (.treeValue t i))) (ht : c.node? t = some .independent)
    {x : Float} (zero : (c.value i).IsZero x) :
    c.callFunction [r] Program.ownSlot "" (.scalar 1) none = .ok (.scalar (1 / x + 0)) := by
  have lowered : (c.expression r).lowered 0 = true := by
    rw [expression_eq hr]
    show ((c.expression t).lowered 0) = true
    rw [expression_eq ht]
    rfl
  have inside : ∀ g ∈ [r], g < c.count := by simpa using lt_count hr
  obtain ⟨p, flattened, length, -⟩ := Program.ofTrees_lowered inside (by simpa using lowered)
  have length : p.outputs.length = 1 := length
  have outputs := fun state => (Program.entries_eq_ok_iff .tensor (.scalar (.real 1)) state inside
    flattened).mpr (List.Forall₂.cons (denote_quotient hr ht zero state) List.Forall₂.nil)
  have created : ScalarFunction.create p "" = .ok ⟨p, "", length⟩ := dif_pos length
  unfold callFunction
  rw [flattened]
  show (ScalarFunction.create p "" >>= fun f => f.call (.scalar 1) none) = _
  rw [created]
  exact ScalarFunction.call_of_entries rfl outputs

theorem Later.trans (first : a.Later b) (second : b.Later c) : a.Later c := by
  induction second with
  | refl => exact first
  | call _ call ih => exact ih.call call

theorem later_of_build {request : NodeRequest} {h : Nat} (run : build request a = .ok h b) :
    a.Later b := by
  have performed : perform (.node request) a = .ok (Int.ofNat h) b := run_map run
  have after : a.after (.node request) = b := by rw [Arena.after, performed]
  exact after ▸ Later.refl.call (.node request)

/-- The quotient of the time and a zero can be built in any arena. -/
theorem exists_quotient (wf : a.WellFormed) {i : Nat} (inside : i < a.values.size) {x : Float}
    (zero : (a.value i).IsZero x) : ∃ c r t, a.Later c ∧
      c.node? r = some (.binary .rdivide (.treeValue t i)) ∧ c.node? t = some .independent := by
  obtain ⟨t, b, run, time⟩ := (independent_stores wf).exists_ok
  obtain ⟨inside', same⟩ := time.grown.value i inside
  have stored : b.OperandsStored (.treeValue t i) :=
    ⟨by simpa [Operands.trees] using time.inside, by simpa [Operands.values] using inside'⟩
  -- zero has no reciprocal, and none is asked for
  have quotable : b.Quotable .rdivide (.treeValue t i) := by
    rintro _ _ n - ⟨⟩ - number nonzero
    obtain ⟨m, value, isZero, -⟩ := zero
    rw [same, value] at number
    cases number
    rw [isZero] at nonzero
    cases nonzero
  have ends := (binary_stores time.wellFormed .rdivide (.treeValue t i)).and
    (binary_exact time.wellFormed .rdivide stored)
  obtain ⟨r, c, run', ⟨-, quotient⟩, -⟩ :=
    (ends.mono (fun _ _ => id) fun _ _ failed => failed.2.1 quotable).exists_ok
  have asked : build (.binary "rdivide" (some (.treeValue t i))) b = .ok r c :=
    (bind_eq (askOperands_of_stored stored)).trans run'
  have asked' : build .independent a = .ok t b := run
  exact ⟨c, r, t, (later_of_build asked').trans (later_of_build asked), quotient.stored,
    quotient.grown.node t _ time.stored⟩

/-- One zero does not behave as the other one. -/
theorem not_behaves (wf : a.WellFormed) {i : Nat} (inside : i < a.values.size) {v : Value}
    (opposite : (a.value i).OppositeZeros v) : ¬ a.Behaves i v := by
  intro behaves
  obtain ⟨x, y, zero, zero', signs⟩ := opposite.exists_isZero
  obtain ⟨c, r, t, later, hr, ht⟩ := exists_quotient wf inside zero
  obtain ⟨inside', same⟩ := (later.grows wf).2.value i inside
  have before := callFunction_quotient hr ht (same.symm ▸ zero)
  have replaced : ((c.withValue i v).value i).IsZero y := by
    rw [value_withValue inside' v]
    exact zero'
  have after := callFunction_quotient (c := c.withValue i v) hr ht replaced
  rw [(behaves c later).function, before] at after
  have quotients : 1 / x + 0 = 1 / y + 0 := by
    simpa [Tensor.scalar] using after
  -- one of them is infinite, the other one is minus that
  revert quotients
  rcases signs with ⟨rfl, rfl⟩ | ⟨rfl, rfl⟩ <;> decide +kernel

/-- What differs in its origin alone from the stored value behaves as it does. -/
theorem behaves_of_bare {h : Nat} (wf : a.WellFormed) (inside : h < a.values.size) {v : Value}
    (bare : (a.value h).bare = v.bare) : a.Behaves h v := by
  intro c later
  obtain ⟨inside', same⟩ := (later.grows wf).2.value h inside
  have replaced := sameEvaluators_withValue inside' (same.symm ▸ bare)
  rwa [withValue_self inside'] at replaced

/-- A value is found, or it is stored as it is. -/
theorem intern_cases (wf : a.WellFormed) (v : Value) :
    (∃ i, intern v a = .ok i a ∧ i < a.values.size ∧ (a.value i).key = v.key) ∨
      ∃ b, intern v a = .ok a.values.size b ∧ b.values = a.values.push v ∧
        ∀ i < a.values.size, (a.value i).key ≠ v.key := by
  cases known : a.valueIndex[v.key]? with
  | some i =>
    have run : intern v a = .ok i a := by rw [intern, known]
    obtain ⟨x, hx, key⟩ := (wf.valueIndex v.key i).mp known
    exact Or.inl ⟨i, run, (Array.getElem?_eq_some_iff.mp hx).1, by rw [value_eq hx, key]⟩
  | none =>
    refine Or.inr ⟨_, by rw [intern, known], rfl, ?_⟩
    intro i inside same
    have stored := Array.getElem?_eq_getElem inside
    have taken := (wf.valueIndex v.key i).mpr ⟨a.values[i], stored, by rwa [← value_eq stored]⟩
    rw [known] at taken
    cases taken

/-- The stored value is the one that was asked for or the zero of the other sign,
    and the latter only if that was stored before. -/
theorem bare_or_stored {h : Nat} (wf : a.WellFormed) {v : Value} (real : v.isReal = true)
    (run : intern v a = .ok h b) :
    (b.value h).bare = v.bare ∧ (¬ ∃ i < a.values.size, (a.value i).OppositeZeros v) ∨
      (b.value h).OppositeZeros v ∧ ∃ i < a.values.size, (a.value i).OppositeZeros v := by
  rcases intern_cases wf v with ⟨i, found, inside, key⟩ | ⟨b', fresh, values, unknown⟩
  · rw [run] at found
    cases found
    have real' : (a.value h).isReal = true := by
      rw [← Value.isReal_key, key, Value.isReal_key, real]
    rcases Value.bare_or_opposite real' key with bare | opposite
    · refine Or.inl ⟨bare, ?_⟩
      rintro ⟨i, inside', opposite⟩
      cases value_injective wf inside' inside (opposite.key.trans key.symm)
      exact opposite.bare_ne bare
    · exact Or.inr ⟨opposite, h, inside, opposite⟩
  · rw [run] at fresh
    cases fresh
    refine Or.inl ⟨by simp [value, values], ?_⟩
    rintro ⟨i, inside, opposite⟩
    exact unknown i inside opposite.key

/-- **A constant behaves as the value that was asked for, unless it is the zero of
    the other sign.** -/
theorem intern_behaves {size : Int} (reached : Reachable size a) {v : Value}
    (real : v.isReal = true) :
    ∃ h b, intern v a = .ok h b ∧
      (b.Behaves h v ↔ ¬ ∃ i < a.values.size, (a.value i).OppositeZeros v) ∧
      ∀ c w d, b.Later c → intern w c = .ok h d → ¬ v.OppositeZeros w →
        ∀ e, d.Later e → (e.withValue h v).SameEvaluators (e.withValue h w) := by
  obtain ⟨-, wf, -⟩ := reached.wellFormed
  obtain ⟨h, b, run, interned⟩ := (intern_interns wf v).exists_ok
  refine ⟨h, b, run, ?_, ?_⟩
  · -- the stored value decides: it is the one asked for, or the other zero
    rcases bare_or_stored wf real run with ⟨bare, none⟩ | ⟨opposite, stored⟩
    · exact iff_of_true (behaves_of_bare interned.wellFormed interned.inside bare) none
    · exact iff_of_false (not_behaves interned.wellFormed interned.inside opposite)
        (not_not_intro stored)
  · intro c w d later run' different e later'
    obtain ⟨wf', grown⟩ := later.grows interned.wellFormed
    obtain ⟨inside, same⟩ := grown.value h interned.inside
    have interned' := (intern_interns wf' w).of_ok run'
    obtain ⟨-, grown'⟩ := later'.grows interned'.wellFormed
    obtain ⟨inside', same'⟩ := grown'.value h interned'.inside
    -- the handle keeps its value, so both have the key that is stored there
    have keys : v.key = w.key := by
      rw [← interned.key, ← interned'.key, (interned'.grown.value h inside).2, same]
    exact sameEvaluators_withValue inside'
      ((Value.bare_or_opposite real keys).resolve_right different)

/-- An arena where zero is stored first. -/
def zeroFirst : Arena :=
  (empty 1).after (.value (.number (.double 0 .plain)))

theorem values_zeroFirst :
    zeroFirst.values.size = 1 ∧ zeroFirst.value 0 = .number (.double 0 .plain) := by
  rcases intern_cases (wellFormed_empty 1 _) (.number (.double 0 .plain)) with
    ⟨i, -, inside, -⟩ | ⟨b, run, values, -⟩
  · exact absurd inside (Nat.not_lt_zero i)
  · have performed : perform (.value (.number (.double 0 .plain))) (empty 1) = .ok (Int.ofNat 0) b :=
      run_map run
    have after : zeroFirst = b := by rw [zeroFirst, Arena.after, performed]
    rw [after]
    simp [value, values, empty]

/-- There the negative zero is lost, and any other double is not. -/
theorem intern_behaves_zero :
    Reachable 1 zeroFirst ∧
      (∃ h b, intern (.number (.double (-0) .plain)) zeroFirst = .ok h b ∧
        ¬ b.Behaves h (.number (.double (-0) .plain))) ∧
      ∃ h b, intern (.number (.double 2 .plain)) zeroFirst = .ok h b ∧
        b.Behaves h (.number (.double 2 .plain)) := by
  have reached : Reachable 1 zeroFirst := ⟨0, _, rfl, Later.refl.call _⟩
  obtain ⟨size, stored⟩ := values_zeroFirst
  refine ⟨reached, ?_, ?_⟩
  · obtain ⟨h, b, run, behaves, -⟩ := intern_behaves reached (v := .number (.double (-0) .plain)) rfl
    refine ⟨h, b, run, fun same => behaves.mp same ⟨0, by omega, ?_⟩⟩
    rw [stored]
    exact Or.inl ⟨rfl, rfl⟩
  · obtain ⟨h, b, run, behaves, -⟩ := intern_behaves reached (v := .number (.double 2 .plain)) rfl
    refine ⟨h, b, run, behaves.mpr ?_⟩
    rintro ⟨i, inside, opposite⟩
    obtain rfl : i = 0 := by omega
    rw [stored] at opposite
    have two : ¬ ((0 : Float) = 0 ∧ (2 : Float) = -0 ∨ (0 : Float) = -0 ∧ (2 : Float) = 0) := by
      decide +kernel
    exact two opposite

end Arena

end JetForm
