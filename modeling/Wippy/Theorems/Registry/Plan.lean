import Wippy.Theorems.Registry.Effects

/-! A reviewed plan and its apply, which may differ in what the digest does not cover. -/

namespace Wippy.Registry
open Lib Wippy.Registry.Topology Expansion List Option

namespace Directed

/-! ### The digest -/

/-- The digest cannot tell the two operations apart. -/
def Alike (ds : DirectedServices) (op op' : Operation) : Prop :=
  ∃ json, describe ds op = some json ∧ describe ds op' = some json

section Digest
variable {ds : DirectedServices} {op op' : Operation} {ops ops' all history : ChangeSet}

end Digest

section Plan
variable {ds : DirectedServices} {d d' : Directed} {w : World} {p : Planned} {all changes : ChangeSet} {v : Nat}
  {newState : State}

theorem plan_eq_ok {base : Nat} {p : ReviewedPlan} (h : (d.plan ds base changes w).result = .ok p) :
    ∃ resolution effects, (measurePlan ds p.changes p.history resolution effects).map Prod.snd = some p.digest := by
  unfold plan at h
  split at h
  · cases h
  split at h
  · cases h
  dsimp only at h
  split at h
  · cases h
  split at h
  · cases h
  next hmeasure =>
    cases h
    exact ⟨_, _, by rw [hmeasure]; rfl⟩

section
variable (h : d.writeApplied ds p all w newState = some (d', v))
include h

end

/-! ### What was reviewed -/

end Plan

variable {ds : DirectedServices} {d d' : Directed} {w w' : World} {base v : Nat} {changes : ChangeSet}
  {p : ReviewedPlan}

/-- Calls one after another. -/
def run (ds : DirectedServices) (d : Directed) (calls : List (DirectedCall × World)) : Directed :=
  calls.foldl (fun d c => (d.call ds c.1 c.2).registry) d

end Directed
end Wippy.Registry
