import JetForm.Proofs.Trace.Expression

/-! # Operations keep to what fits

    Applied to operands that fit, every operation leaves a well formed workspace
    and gives an operand that fits.  Results that are evaluated at once hold no
    expressions; those of traced operands are recorded. -/

namespace JetForm

variable {R : Tree → Domain Float → Prop} {w : Workspace}

/-- Everything in the result fits. -/
abbrev Yields (R : Tree → Domain Float → Prop) (x : Tracing Operand) (w : Workspace) : Prop :=
  Runs x w fun w' v => v.Fits R w'

namespace Yields

theorem number {x : Tracing Number} {P : Workspace → Number → Prop} (h : Runs x w P) :
    Yields R (.number <$> x) w := by
  apply Runs.map
  apply h.weaken
  exact fun n _ _ _ => Operand.Fits.number n

theorem array {x : Tracing HeldArray} {P : Workspace → HeldArray → Prop} (h : Runs x w P) :
    Yields R (.array <$> x) w := by
  apply Runs.map
  apply h.weaken
  exact fun x _ _ _ => Operand.Fits.array x

theorem text {x : Tracing String} {P : Workspace → String → Prop} (h : Runs x w P) :
    Yields R (.text <$> x) w := by
  apply Runs.map
  apply h.weaken
  exact fun s _ _ _ => Operand.Fits.text s

theorem traced {x : Tracing Traced} {Q : Traced → Prop}
    (h : Runs x w fun w' e => e.Fits R w' ∧ Q e) : Yields R (.traced <$> x) w := by
  apply Runs.map
  apply h.weaken
  exact fun e _ _ known => Operand.Fits.traced known.1

end Yields

/-- What is evaluated at once does not touch the workspace. -/
theorem Workspace.evaluated_runs {α : Type} (x : Except Fault α) :
    Runs (Workspace.evaluated x) w fun _ _ => True :=
  Runs.checked

theorem Operand.ofArray_yields (x : HeldArray) : Yields R (Operand.ofArray x) w := by
  unfold Operand.ofArray
  split
  · exact Yields.number (Workspace.entryLiteral_runs _)
  · exact Runs.pure (Operand.Fits.array x)

namespace Expression

/-! ## Arithmetic -/

theorem fresh_yields (n : Number) : Yields R (fresh n) w := by
  unfold fresh
  split
  · exact Yields.number (Workspace.literal_runs _)
  · exact Yields.number (Workspace.entryLiteral_runs _)
  · exact Runs.pure (Operand.Fits.number _)

theorem array_yields (x : Except Fault HeldArray) : Yields R (array x) w := by
  apply Runs.bind (Workspace.evaluated_runs x)
  intro x w' _ _
  exact Operand.ofArray_yields x

theorem Sign.apply_yields (s : Sign) (n : Number) : Yields R (s.apply n) w := by
  unfold Sign.apply
  apply Runs.bind (Workspace.evaluated_runs _)
  intro v w' _ _
  split
  · exact Runs.pure (Operand.Fits.number v)
  · exact fresh_yields v

theorem sign_yields (inherited : Inherited R) (s : Sign) {x : Operand} (fits : x.Fits R w) :
    Yields R (sign s x) w := by
  unfold sign
  split
  · exact Yields.traced (Traced.unary_runs inherited s.op fits.of_traced)
  · exact s.apply_yields _
  · exact array_yields _
  · exact Runs.throw

/-- Lists are repeated and joined entry by entry. -/
theorem sequenceArithmetic_yields (op : BinaryOp) {left right : Operand} (hl : left.Fits R w)
    (hr : right.Fits R w) : Yields R (sequenceArithmetic op left right) w := by
  -- a sequence that is repeated has no items but its own
  have copies : ∀ (k : Nat) {items : List Operand}, (Operand.sequence items).Fits R w →
      (Operand.sequence (List.replicate k items).flatten).Fits R w := by
    intro k items fits
    apply Operand.Fits.sequence
    intro v hv
    obtain ⟨l, hl, hv⟩ := List.mem_flatten.mp hv
    rw [List.eq_of_mem_replicate hl] at hv
    exact fits.of_sequence v hv
  unfold sequenceArithmetic
  dsimp only
  split
  · exact Runs.pure (Operand.Fits.text _)
  · next xs ys =>
    apply Runs.pure
    apply Operand.Fits.sequence
    intro v hv
    rcases List.mem_append.mp hv with hv | hv
    · exact hl.of_sequence v hv
    · exact hr.of_sequence v hv
  · split
    · exact Runs.pure (Operand.Fits.text _)
    · exact Runs.throw
  · split
    · exact Runs.pure (Operand.Fits.text _)
    · exact Runs.throw
  · split
    · exact Runs.pure (copies _ hl)
    · exact Runs.throw
  · split
    · exact Runs.pure (copies _ hr)
    · exact Runs.throw
  · exact Runs.throw

theorem arithmetic_yields (inherited : Inherited R) (op : BinaryOp) {left right : Operand}
    (hl : left.Fits R w) (hr : right.Fits R w) : Yields R (arithmetic op left right) w := by
  unfold arithmetic
  split
  · exact Yields.traced (combine_runs inherited op.name hl hr)
  · exact Yields.traced (combine_runs inherited op.name hl hr)
  · apply Runs.bind (Workspace.evaluated_runs _)
    intro n w' _ _
    exact fresh_yields n
  · exact array_yields _
  · exact array_yields _
  · exact array_yields _
  · exact sequenceArithmetic_yields op hl hr

theorem elementary_yields (inherited : Inherited R) (op : UnaryOp) {x : Operand}
    (fits : x.Fits R w) : Yields R (elementary op x) w := by
  unfold elementary
  split
  · exact Yields.traced (Traced.unary_runs inherited op fits.of_traced)
  · exact Yields.array Runs.checked
  · exact Yields.array Runs.checked
  · exact Runs.throw

theorem diff_yields (inherited : Inherited R) {x : Operand} (fits : x.Fits R w) (order : Operand) :
    Yields R (diff x order) w := by
  unfold diff
  split
  · exact Yields.traced (Traced.diff_runs inherited order fits.of_traced)
  · exact Runs.throw

/-! ## Conversions -/

theorem convertNumber_yields (c : Conversion) (n : Number) : Yields R (convertNumber c n) w := by
  unfold convertNumber
  split
  · exact Runs.pure (Operand.Fits.number _)
  · exact Runs.pure (Operand.Fits.number _)
  · split
    · exact Runs.thrown
    · apply Runs.bind (Workspace.evaluated_runs _)
      intro x w' _ _
      exact Yields.number (Workspace.literal_runs x)
  · apply Runs.bind Runs.checked
    exact fun k _ _ _ => Runs.pure (Operand.Fits.number _)
  · exact Runs.throw
  · split
    · exact Runs.pure (Operand.Fits.number _)
    · exact Runs.throw
  · exact Runs.throw
  · exact Runs.throw

/-- The entries of an array are numbers. -/
theorem convertArray_yields (c : Conversion) (x : HeldArray) : Yields R (convertArray c x) w := by
  have scalars : ∀ v ∈ x.tensor.entries.toList.map fun e => Operand.number (.ofEntry e),
      v.Fits R w := by
    intro v hv
    obtain ⟨e, -, rfl⟩ := List.mem_map.mp hv
    exact Operand.Fits.number _
  unfold convertArray
  dsimp only
  generalize x.tensor.entries.toList.map (fun e => Operand.number (.ofEntry e)) = items at scalars ⊢
  split
  · exact Runs.pure (Operand.Fits.sequence scalars)
  · exact Runs.throw
  · exact Runs.pure (scalars _ List.mem_cons_self)
  · exact Runs.throw
  · exact Runs.pure (Operand.Fits.number _)
  · exact Runs.throw
  · exact convertNumber_yields _ _
  · exact Runs.throw
  · exact Runs.throw

theorem convertText_yields (c : Conversion) (s : String) : Yields R (convertText c s) w := by
  unfold convertText
  split
  · exact Runs.pure (Operand.Fits.number _)
  · split
    · exact Yields.number (Workspace.literal_runs _)
    · exact Runs.throw
  · split
    · exact Runs.pure (Operand.Fits.number _)
    · exact Runs.throw
  · apply Runs.pure
    apply Operand.Fits.sequence
    intro v hv
    obtain ⟨letter, -, rfl⟩ := List.mem_map.mp hv
    exact Operand.Fits.text _
  · exact Runs.pure (Operand.Fits.text _)
  · exact Runs.throw
  · exact Runs.throw

theorem convert_yields (c : Conversion) {x : Operand} (fits : x.Fits R w) :
    Yields R (convert c x) w := by
  unfold convert
  split
  · exact Traced.refuse_runs _ _
  · exact convertNumber_yields c _
  · exact convertArray_yields c _
  · exact convertText_yields c _
  · exact Runs.pure (Operand.Fits.number _)
  · exact Runs.pure (Operand.Fits.number _)
  · exact Runs.pure (Operand.Fits.number _)
  · exact Runs.pure fits
  · split
    · exact Runs.pure (fits.of_sequence _ List.mem_cons_self)
    · exact Runs.throw
  · exact Runs.throw

/-! ## Texts with gaps -/

theorem filling_runs (letter : Char) {v : Operand} (fits : v.Fits R w) :
    Runs (filling letter v) w fun _ _ => True := by
  have whole : ∀ (c : Conversion) (write : Operand → Tracing String),
      (∀ x w', Runs (write x) w' fun _ _ => True) →
      Runs (convert c v >>= write) w fun _ _ => True :=
    fun c write writes => Runs.bind (convert_yields c fits) fun x w' _ _ => writes x w'
  unfold filling
  dsimp only
  split
  · exact Runs.pure trivial
  · exact Runs.pure trivial
  all_goals first
    | exact Operand.written_runs w _
    | exact Runs.throw
    | refine whole _ _ fun x w' => ?_
    | refine Runs.throwAfter (whole _ _ fun x w' => ?_)
  -- a number is written as text, anything else is refused
  all_goals
    split
    · exact Runs.pure trivial
    · exact Runs.throw

theorem fill_runs {v : Operand} (fits : v.Fits R w) (used : Bool) (cs : List Char) :
    Runs (fill v used cs) w fun _ _ => True := by
  fun_induction fill v used cs generalizing w with
  | case1 => exact Runs.pure trivial
  | case2 | case3 => exact Runs.throw
  | case5 | case7 => exact Runs.thrown
  | case6 => exact Runs.throwAfter (convert_yields .first fits)
  | case4 used rest ih | case9 used c rest _ _ _ _ ih =>
    apply Runs.bind (ih fits)
    exact fun _ _ _ _ => Runs.pure trivial
  | case8 used letter rest _ _ _ _ =>
    rename_i ih
    apply Runs.bind (filling_runs letter fits)
    intro text w' grown _
    apply Runs.bind (ih (fits.grow grown))
    exact fun _ _ _ _ => Runs.pure trivial

/-! ## Operators without a rule -/

theorem compareOthers_yields (c : Comparison) (left right : Operand) :
    Yields R (compareOthers c left right) w := by
  have truth : ∀ (b : Prop) [Decidable b] (v : Number),
      Yields R (if b then return .number v else throw .argument) w := by
    intro b _ v
    split
    · exact Runs.pure (Operand.Fits.number v)
    · exact Runs.throw
  unfold compareOthers
  split
  · exact Runs.pure (Operand.Fits.number _)
  · exact truth _ _
  · exact truth _ _
  · exact Runs.throw
  · exact truth _ _
  · exact truth _ _

/-- Traced operands are refused by name. -/
theorem unruled_yields (op : UnruledOp) {left right : Operand} (hr : right.Fits R w) :
    Yields R (unruled op left right) w := by
  unfold unruled
  split
  · exact Traced.refuse_runs _ _
  · exact Yields.text (fill_runs hr false _)
  · exact Traced.refuse_runs _ _
  · exact Runs.throwAfter (Traced.firstVar_runs _)
  · exact Runs.throwAfter (Traced.firstVar_runs _)
  · exact Traced.refuse_runs _ _
  · apply Runs.bind (Workspace.evaluated_runs _)
    intro n w' _ _
    exact fresh_yields n
  · exact array_yields _
  · exact array_yields _
  · exact array_yields _
  · exact compareOthers_yields _ _ _
  · exact Runs.throw

/-! ## Attributes -/

theorem tracedAttribute_yields (inherited : Inherited R) (name : String) {e : Traced}
    (fits : e.Fits R w) : Yields R (tracedAttribute name e) w := by
  unfold tracedAttribute
  split
  · exact Yields.traced (Traced.unary_runs inherited _ fits)
  · exact Yields.traced (Traced.diff_runs inherited _ fits)
  · exact Yields.traced (Traced.unary_runs inherited _ fits)
  · exact Yields.traced (Traced.unary_runs inherited _ fits)
  · exact Yields.traced (Traced.unary_runs inherited _ fits)
  · exact Traced.refuse_runs _ _
  · exact Traced.refuse_runs _ _
  · exact Traced.refuse_runs _ _
  · exact Traced.refuse_runs _ _
  · exact Traced.refuse_runs _ _
  · exact Yields.text (Operand.written_runs w _)
  · exact Yields.text (Operand.written_runs w _)
  · apply Runs.bind (Traced.firstVar_runs e)
    intro var w' _ _
    cases var with
    | none => exact Runs.pure Operand.Fits.nothing
    | some var => exact Runs.pure (Operand.Fits.number _)
  · split
    · exact Runs.throw
    · exact Runs.throw

theorem ask_yields (inherited : Inherited R) {x : Operand} (fits : x.Fits R w) (a : Attribute) :
    Yields R (ask x a) w := by
  unfold ask
  split
  · exact Yields.traced (Traced.diff_runs inherited _ fits.of_traced)
  · exact Yields.traced (Traced.apply_runs inherited _ fits.of_traced)
  · exact tracedAttribute_yields inherited _ fits.of_traced
  · exact Runs.throw

/-! ## Calls -/

/-- Every step of the evaluation of a polynomial is an operation. -/
theorem polynomial_yields (inherited : Inherited R) (coefficients : List Float) {x : Operand}
    (fits : x.Fits R w) : Yields R (polynomial coefficients x) w := by
  have step : ∀ (c : Float) (rest : Operand) (w : Workspace), x.Fits R w → rest.Fits R w →
      Yields R (do arithmetic .plus (← arithmetic .times rest x) (.number (← Workspace.literal c)))
        w := by
    intro c rest w hx hrest
    apply Runs.bind (arithmetic_yields inherited .times hrest hx)
    intro product w' _ known
    apply Runs.bind (Workspace.literal_runs c)
    intro n w'' grown _
    exact arithmetic_yields inherited .plus (known.grow grown) (Operand.Fits.number n)
  -- the scheme of Horner, from the last coefficient on
  have fold : ∀ (cs : List Float) (start : Operand) (w : Workspace), x.Fits R w →
      start.Fits R w → Yields R (cs.foldrM (fun c rest => do
        arithmetic .plus (← arithmetic .times rest x) (.number (← Workspace.literal c))) start)
        w := by
    intro cs start w hx hstart
    induction cs with
    | nil => exact Runs.pure hstart
    | cons c cs ih =>
      rw [List.foldrM_cons]
      apply Runs.bind ih
      intro rest w' grown known
      exact step c rest w' (hx.grow grown) known
  unfold polynomial
  apply Runs.bind (Workspace.literal_runs _)
  intro last w₁ grown₁ _
  apply Runs.bind (arithmetic_yields inherited .times (Operand.Fits.number _) (fits.grow grown₁))
  intro zero w₂ grown₂ known
  apply Runs.bind (arithmetic_yields inherited .plus (Operand.Fits.number last) known)
  intro start w₃ grown₃ known'
  exact fold _ start w₃ (fits.grow (grown₁.trans (grown₂.trans grown₃))) known'

/-- Calling an external function with operands. -/
theorem call_yields (inherited : Inherited R) (f : External) {args : List Operand}
    (fits : ∀ v ∈ args, v.Fits R w) : Yields R (call f args) w := by
  unfold call
  split
  · next x _ => exact polynomial_yields inherited _ (fits _ (by simp))
  · exact unruled_yields _ (Operand.Fits.number _)
  · exact Yields.number (Workspace.literal_runs _)
  · exact elementary_yields inherited _ (fits _ (by simp))
  · exact Runs.throw
  · exact convert_yields .items (fits _ (by simp))
  · exact unruled_yields _ (fits _ (by simp))
  · exact Runs.throw

end Expression

end JetForm
