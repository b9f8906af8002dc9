import Mathlib.Logic.Function.Basic

/-! # Runs of a step function

Operations are taken one after another, from whichever thread they come; one that cannot be
taken ends the run. -/

set_option autoImplicit false

namespace Odin32.StepRun

variable {σ ε : Type} (step : σ → ε → Option σ)

def run : List ε → σ → Option σ
  | [], s => some s
  | op :: ops, s => (step s op).bind (run ops)

/-- Every operation of the run is taken in a state that is `ok` for it. -/
def Meets (ok : σ → ε → Prop) : σ → List ε → Prop
  | _, [] => True
  | s, op :: ops => ok s op ∧ ∀ s', step s op = some s' → Meets ok s' ops

variable {step} {ok : σ → ε → Prop} {inv : σ → Prop} {ops : List ε} {s s' : σ}

theorem meets_none {op : ε} (stepped : step s op = none) :
    ok s op ↔ Meets step ok s (op :: ops) := by
  refine ⟨fun here => ⟨here, fun s' stepped' => ?_⟩, fun meets => meets.1⟩
  cases stepped.symm.trans stepped'

theorem meets_some {op : ε} (stepped : step s op = some s') :
    ok s op ∧ Meets step ok s' ops ↔ Meets step ok s (op :: ops) := by
  constructor
  · rintro ⟨here, later⟩
    refine ⟨here, fun s'' stepped' => ?_⟩
    obtain rfl := Option.some.inj (stepped.symm.trans stepped')
    exact later
  · rintro ⟨here, later⟩
    exact ⟨here, later s' stepped⟩

instance decidableMeets [∀ s op, Decidable (ok s op)] :
    ∀ (s : σ) (ops : List ε), Decidable (Meets step ok s ops)
  | _, [] => isTrue trivial
  | s, op :: ops =>
    match stepped : step s op with
    | none => decidable_of_iff (ok s op) (meets_none stepped)
    | some s' =>
      have := decidableMeets s' ops
      decidable_of_iff (ok s op ∧ Meets step ok s' ops) (meets_some stepped)

theorem meets_of_all (all : ∀ op ∈ ops, ∀ s, ok s op) : Meets step ok s ops := by
  induction ops generalizing s with
  | nil => trivial
  | cons op ops ih =>
    refine ⟨all op (List.mem_cons_self ..) s, fun s' _ => ?_⟩
    exact ih fun op' mem => all op' (List.mem_cons_of_mem op mem)

theorem meets_and {ok' : σ → ε → Prop} (meets : Meets step ok s ops)
    (meets' : Meets step ok' s ops) : Meets step (fun s op => ok s op ∧ ok' s op) s ops := by
  induction ops generalizing s with
  | nil => trivial
  | cons op ops ih =>
    obtain ⟨here, later⟩ := meets
    obtain ⟨here', later'⟩ := meets'
    exact ⟨⟨here, here'⟩, fun s' stepped => ih (later s' stepped) (later' s' stepped)⟩

/-- What every step keeps holds after every run. -/
theorem run_keeps (keeps : ∀ s op s', inv s → ok s op → step s op = some s' → inv s')
    (start : inv s) (meets : Meets step ok s ops) (ran : run step ops s = some s') : inv s' := by
  induction ops generalizing s with
  | nil =>
    cases ran
    exact start
  | cons op ops ih =>
    obtain ⟨here, later⟩ := meets
    obtain ⟨mid, stepped, rest⟩ := Option.bind_eq_some_iff.mp ran
    exact ih (keeps s op mid start here stepped) (later mid stepped) rest

end Odin32.StepRun
