import Mathlib

/-!
# Runs with a history

A machine takes one input at a time and reports what it did.  `execute` feeds
it a list of inputs and concatenates the reports.  The induction rules below
carry an invariant of the processed inputs, the state and the history, so that
a property of whole runs is reduced to a property of one step.
-/

namespace Plasma.Lib

variable {σ ι ε : Type*}

/-- Feed a list of inputs to a machine, collecting the reports in order. -/
def execute (step : σ → ι → σ × List ε) : σ → List ι → σ × List ε
  | state, [] => (state, [])
  | state, input :: inputs =>
      let (next, report) := step state input
      let (final, reports) := execute step next inputs
      (final, report ++ reports)

section

variable (step : σ → ι → σ × List ε)

@[simp] theorem execute_nil (state : σ) :
    execute step state [] = (state, []) := rfl

@[simp] theorem execute_cons (state : σ) (input : ι) (inputs : List ι) :
    execute step state (input :: inputs) =
      ((execute step (step state input).1 inputs).1,
        (step state input).2 ++ (execute step (step state input).1 inputs).2) :=
  rfl

theorem execute_append (state : σ) (first second : List ι) :
    execute step state (first ++ second) =
      ((execute step (execute step state first).1 second).1,
        (execute step state first).2 ++
          (execute step (execute step state first).1 second).2) := by
  induction first generalizing state with
  | nil => simp
  | cons input inputs induction => simp [induction]

end

/-- Every input of the list meets `Ok` in the state in which it is taken. -/
def StepsMeet (step : σ → ι → σ × List ε) (Ok : σ → ι → Prop) :
    σ → List ι → Prop
  | _, [] => True
  | state, input :: inputs =>
      Ok state input ∧ StepsMeet step Ok (step state input).1 inputs

instance decidableStepsMeet (step : σ → ι → σ × List ε)
    (Ok : σ → ι → Prop) [∀ state, DecidablePred (Ok state)] :
    (state : σ) → (inputs : List ι) →
      Decidable (StepsMeet step Ok state inputs)
  | _, [] => isTrue trivial
  | state, input :: inputs =>
      have := decidableStepsMeet step Ok (step state input).1 inputs
      inferInstanceAs (Decidable
        (Ok state input ∧ StepsMeet step Ok (step state input).1 inputs))

section Induction

variable (step : σ → ι → σ × List ε) (Ok : σ → ι → Prop)
  (Inv : List ι → σ → List ε → Prop)

private theorem execute_induction_from
    (preserved : ∀ past state history input,
      Inv past state history → Ok state input →
        Inv (past ++ [input]) (step state input).1
          (history ++ (step state input).2))
    (inputs : List ι) :
    ∀ past state history, Inv past state history →
      StepsMeet step Ok state inputs →
        Inv (past ++ inputs) (execute step state inputs).1
          (history ++ (execute step state inputs).2) := by
  induction inputs with
  | nil =>
      intro past state history holds _
      simpa using holds
  | cons input inputs induction =>
      intro past state history holds meets
      have next := preserved past state history input holds meets.1
      have rest := induction _ _ _ next meets.2
      simpa using rest

/-- Induction over a run: an invariant of the inputs already processed, the
state and the history that every admitted step preserves holds at the end. -/
theorem execute_induction
    (preserved : ∀ past state history input,
      Inv past state history → Ok state input →
        Inv (past ++ [input]) (step state input).1
          (history ++ (step state input).2))
    {start : σ} (initially : Inv [] start []) {inputs : List ι}
    (meets : StepsMeet step Ok start inputs) :
    Inv inputs (execute step start inputs).1 (execute step start inputs).2 := by
  have final :=
    execute_induction_from step Ok Inv preserved inputs [] start [] initially
      meets
  simpa using final

end Induction

/-- Every input of the list meets `Ok` in the state in which it is taken and
with the reports made so far. -/
def RunMeets (step : σ → ι → σ × List ε) (Ok : σ → List ε → ι → Prop) :
    σ → List ε → List ι → Prop
  | _, _, [] => True
  | state, history, input :: inputs =>
      Ok state history input ∧
        RunMeets step Ok (step state input).1 (history ++ (step state input).2)
          inputs

instance decidableRunMeets (step : σ → ι → σ × List ε)
    (Ok : σ → List ε → ι → Prop)
    [∀ state history, DecidablePred (Ok state history)] :
    (state : σ) → (history : List ε) → (inputs : List ι) →
      Decidable (RunMeets step Ok state history inputs)
  | _, _, [] => isTrue trivial
  | state, history, input :: inputs =>
      have := decidableRunMeets step Ok (step state input).1
        (history ++ (step state input).2) inputs
      inferInstanceAs (Decidable (Ok state history input ∧
        RunMeets step Ok (step state input).1
          (history ++ (step state input).2) inputs))

private theorem runMeets_induction_from (step : σ → ι → σ × List ε)
    (Ok : σ → List ε → ι → Prop) (Inv : List ι → σ → List ε → Prop)
    (run : List ι) (reports : List ε)
    (preserved : ∀ past state history input,
      Inv past state history → Ok state history input →
        past ++ [input] <+: run → history ++ (step state input).2 <+: reports →
          Inv (past ++ [input]) (step state input).1
            (history ++ (step state input).2))
    (inputs : List ι) :
    ∀ past state history, Inv past state history →
      RunMeets step Ok state history inputs → past ++ inputs <+: run →
        history ++ (execute step state inputs).2 <+: reports →
          Inv (past ++ inputs) (execute step state inputs).1
            (history ++ (execute step state inputs).2) := by
  induction inputs with
  | nil =>
      intro past state history holds _ _ _
      simpa using holds
  | cons input inputs induction =>
      intro past state history holds meets reached reported
      rw [execute_cons, ← List.append_assoc] at reported
      rw [List.append_cons] at reached
      have next := preserved past state history input holds meets.1
        ((List.prefix_append _ _).trans reached)
        ((List.prefix_append _ _).trans reported)
      have rest := induction _ _ _ next meets.2 reached reported
      simpa using rest

/-- Induction over a run whose steps meet a condition on the history, where
the inputs and the reports so far begin those of the whole run. -/
theorem runMeets_prefix_induction {step : σ → ι → σ × List ε}
    {Ok : σ → List ε → ι → Prop} (Inv : List ι → σ → List ε → Prop)
    {start : σ} {inputs : List ι}
    (preserved : ∀ past state history input,
      Inv past state history → Ok state history input →
        past ++ [input] <+: inputs →
          history ++ (step state input).2 <+: (execute step start inputs).2 →
            Inv (past ++ [input]) (step state input).1
              (history ++ (step state input).2))
    (initially : Inv [] start [])
    (meets : RunMeets step Ok start [] inputs) :
    Inv inputs (execute step start inputs).1 (execute step start inputs).2 := by
  have final := runMeets_induction_from step Ok Inv inputs _ preserved inputs
    [] start [] initially meets (List.prefix_refl _) (List.prefix_refl _)
  simpa using final

/-- Induction over a run whose steps meet a condition on the history. -/
theorem runMeets_induction {step : σ → ι → σ × List ε}
    {Ok : σ → List ε → ι → Prop} (Inv : σ → List ε → Prop)
    (preserved : ∀ state history input,
      Inv state history → Ok state history input →
        Inv (step state input).1 (history ++ (step state input).2))
    {start : σ} (initially : Inv start []) {inputs : List ι}
    (meets : RunMeets step Ok start [] inputs) :
    Inv (execute step start inputs).1 (execute step start inputs).2 := by
  refine runMeets_prefix_induction (fun _ state history => Inv state history)
    ?_ initially meets
  intro past state history input holds admitted _ _
  exact preserved state history input holds admitted

/-- A condition that holds of every input in every state holds along every
run. -/
theorem stepsMeet_of_forall
    {step : σ → ι → σ × List ε} {Ok : σ → ι → Prop} {inputs : List ι}
    (good : ∀ input ∈ inputs, ∀ state, Ok state input) (state : σ) :
    StepsMeet step Ok state inputs := by
  induction inputs generalizing state with
  | nil => trivial
  | cons input inputs induction =>
      refine ⟨good input (by simp) state, induction ?_ _⟩
      intro later member
      exact good later (by simp [member])

/-- Two conditions along a run hold together. -/
theorem StepsMeet.imp {step : σ → ι → σ × List ε} {Ok Weaker : σ → ι → Prop}
    (weaker : ∀ state input, Ok state input → Weaker state input)
    {inputs : List ι} {state : σ} (meets : StepsMeet step Ok state inputs) :
    StepsMeet step Weaker state inputs := by
  induction inputs generalizing state with
  | nil => trivial
  | cons input inputs induction =>
      exact ⟨weaker state input meets.1, induction meets.2⟩

theorem StepsMeet.and {step : σ → ι → σ × List ε} {Ok Also : σ → ι → Prop}
    {inputs : List ι} {state : σ} (meets : StepsMeet step Ok state inputs)
    (others : StepsMeet step Also state inputs) :
    StepsMeet step (fun state input => Ok state input ∧ Also state input)
      state inputs := by
  induction inputs generalizing state with
  | nil => trivial
  | cons input inputs induction =>
      exact ⟨⟨meets.1, others.1⟩, induction meets.2 others.2⟩

/-- A property of the inputs alone joins a condition along a run. -/
theorem StepsMeet.and_forall {step : σ → ι → σ × List ε}
    {Ok : σ → ι → Prop} {Q : ι → Prop} {inputs : List ι}
    (all : ∀ input ∈ inputs, Q input) {state : σ}
    (meets : StepsMeet step Ok state inputs) :
    StepsMeet step (fun state input => Ok state input ∧ Q input) state
      inputs :=
  meets.and (stepsMeet_of_forall (fun input member _ => all input member) _)

/-- Induction over a run without a condition on its steps. -/
theorem execute_invariant
    (step : σ → ι → σ × List ε) (Inv : List ι → σ → List ε → Prop)
    (preserved : ∀ past state history input, Inv past state history →
      Inv (past ++ [input]) (step state input).1
        (history ++ (step state input).2))
    {start : σ} (initially : Inv [] start []) (inputs : List ι) :
    Inv inputs (execute step start inputs).1 (execute step start inputs).2 := by
  have unconditional : StepsMeet step (fun _ _ => True) start inputs :=
    stepsMeet_of_forall (fun _ _ _ => trivial) start
  refine execute_induction step (fun _ _ => True) Inv ?_ initially
    unconditional
  intro past state history input holds _
  exact preserved past state history input holds

/-- A report of a run is made by one of its steps. -/
theorem execute_split {step : σ → ι → σ × List ε} {inputs : List ι}
    {before after : List ε} {report : ε} :
    ∀ {start : σ},
      (execute step start inputs).2 = before ++ report :: after →
        ∃ past input rest early late,
          inputs = past ++ input :: rest ∧
            before = (execute step start past).2 ++ early ∧
              (step (execute step start past).1 input).2 =
                early ++ report :: late := by
  induction inputs generalizing before with
  | nil =>
      intro start split
      simp at split
  | cons input inputs induction =>
      intro start split
      have place : (∃ late, (step start input).2 = before ++ report :: late) ∨
          ∃ early, before = (step start input).2 ++ early ∧
            (execute step (step start input).1 inputs).2 =
              early ++ report :: after := by
        rcases List.append_eq_append_iff.mp split with
          later | ⟨late, first, tail⟩
        · exact .inr later
        · cases late with
          | nil => exact .inr ⟨[], by simp [first], tail.symm⟩
          | cons other late =>
              cases tail
              exact .inl ⟨late, first⟩
      rcases place with ⟨late, now⟩ | ⟨early, rfl, later⟩
      · exact ⟨[], input, inputs, before, late, rfl, rfl, now⟩
      · obtain ⟨past, taken, rest, front, late, rfl, rfl, made⟩ :=
          induction later
        exact ⟨input :: past, taken, rest, front, late, rfl,
          (List.append_assoc ..).symm, made⟩

/-- A property of every state reached, read off the steps one at a time: where
`Cond` says exactly which admitted steps keep the property. -/
theorem reached_iff {step : σ → ι → σ × List ε} {Ok Cond : σ → ι → Prop}
    (Inv Good : σ → Prop)
    (preserved : ∀ state input, Inv state → Ok state input →
      Inv (step state input).1)
    (keeps : ∀ state input, Inv state → Good state → Ok state input →
      (Good (step state input).1 ↔ Cond state input))
    {inputs : List ι} :
    ∀ {start : σ}, Inv start → Good start →
      StepsMeet step Ok start inputs →
        ((∀ past, past <+: inputs → Good (execute step start past).1) ↔
          StepsMeet step Cond start inputs) := by
  induction inputs with
  | nil =>
      intro start _ good _
      refine ⟨fun _ => trivial, ?_⟩
      intro _ past initial
      rw [List.prefix_nil.mp initial]
      exact good
  | cons input inputs induction =>
      intro start holds good meets
      have next := preserved start input holds meets.1
      have decided := keeps start input holds good meets.1
      constructor
      · intro always
        have after : Good (step start input).1 :=
          always [input] ⟨inputs, rfl⟩
        refine ⟨decided.mp after, (induction next after meets.2).mp ?_⟩
        intro past initial
        exact always (input :: past) (List.cons_prefix_cons.mpr ⟨rfl, initial⟩)
      · rintro ⟨first, rest⟩ past initial
        have after := decided.mpr first
        cases past with
        | nil => exact good
        | cons other past =>
            obtain ⟨rfl, tail⟩ := List.cons_prefix_cons.mp initial
            exact (induction next after meets.2).mpr rest past tail

/-- Every report meets `Q` together with the reports before it. -/
def Along (Q : List ε → ε → Prop) (history : List ε) : Prop :=
  ∀ before report after, history = before ++ report :: after → Q before report

namespace Along

variable {Q : List ε → ε → Prop} {history : List ε}

theorem nil : Along Q [] := by
  intro before report after split
  simp at split

theorem snoc {report : ε} (holds : Along Q history) (last : Q history report) :
    Along Q (history ++ [report]) := by
  intro before other after split
  rcases List.eq_nil_or_concat after with rfl | ⟨rest, final, rfl⟩
  · obtain ⟨rfl, same⟩ := List.append_inj' split rfl
    cases same
    exact last
  · have shifted : history ++ [report] =
        (before ++ other :: rest) ++ [final] := by
      simpa using split
    exact holds before other rest (List.append_inj' shifted rfl).1

/-- Reports of which nothing is asked may follow. -/
theorem append (holds : Along Q history) {extra : List ε}
    (free : ∀ report ∈ extra, ∀ before, Q before report) :
    Along Q (history ++ extra) := by
  induction extra generalizing history with
  | nil => simpa using holds
  | cons report extra induction =>
      have first := holds.snoc (free report (by simp) history)
      have rest := induction first
        (fun other member => free other (by simp [member]))
      simpa using rest

end Along

end Plasma.Lib
