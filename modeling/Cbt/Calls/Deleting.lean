import Cbt.Caches.Identity

/-! One call of `Delete`, in any state of its controller and whether or not the
database answers. The cache is changed before the database is asked, and the
search falls back on the first cached object, so the call does what it is asked
exactly when it deletes the one cached object of a stored document. -/

namespace Cbt

open Lib.Command (run_bind_iff run_pure_iff)

variable {w w' : World} {k : Kind} {oid : Oid} {fails : Bool}

/-- How a call of `Delete` ends: with the answer of the database, or with its failure, which `Delete` does not
catch. -/
inductive DeleteEnds (w : World) (k : Kind) (oid : Oid) : Bool → Option Bool → World → Prop
  | answered {r : Bool} {w' : World} (h : run (Controller.delete k oid) w = .ok (r, w')) :
      DeleteEnds w k oid false (some r) w'
  | failed {w' : World} (h : run (Controller.deleteFromCash k oid) w = .ok ((), w')) :
      DeleteEnds w k oid true none w'

/-- The flag and the count of an object. -/
def Lib.Conf.standing (w : World) (p : ℕ) : Option (Bool × ℤ) :=
  ((w.heap.get p).bind (·.fromDB)).map fun b => (b.isExist, b.ownedCount)

/-- What `Delete` should have done when it ends. -/
structure DeletedOnly (w : World) (k : Kind) (oid : Oid) (fails : Bool) (r : Option Bool) (w' : World) : Prop where
  others : ∀ p ∈ w.cash k, w.idOf p ≠ some oid → p ∈ w'.cash k ∧ w'.standing p = w.standing p
  target : ∀ p ∈ w.cash k, w.idOf p = some oid → p ∉ w'.cash k
  removed : (w.stored k oid).isSome → fails = false → w'.stored k oid = none ∧ r = some true
  kept : w.stored k oid = none ∨ fails = true → w'.cash k = w.cash k ∧ w'.heap = w.heap ∧ r ≠ some true

/-- `Delete` ends, and has done only what it should. -/
def DeletesOnly (w : World) (k : Kind) (oid : Oid) (fails : Bool) : Prop :=
  (∃ r w', DeleteEnds w k oid fails r w') ∧ ∀ r w', DeleteEnds w k oid fails r w' → DeletedOnly w k oid fails r w'

/-- However it ends, the victim is dismissed and leaves the cache. -/
theorem DeleteEnds.effect {r : Option Bool} (hl : w.Held (w.cash k)) (h : DeleteEnds w k oid fails r w') :
    ∃ p b x db, w.victim k oid = some p ∧ w.heap.get p = some ⟨some b, x⟩ ∧
      w' = ((((w.setChanged k true).dismiss p b x).setCash k ((w.cash k).filter (· ≠ p))).setEnv db) ∧
      (fails = false → (w.stored k oid).isSome → db.get? k oid = none ∧ r = some true) := by
  cases h with
  | answered h =>
    rw [Controller.delete_eq] at h
    simp only [run_bind_iff, run_value_iff, run_pure_iff] at h
    obtain ⟨_, w₁, h₁, a, w₂, h₂, a', _, ⟨rfl, rfl⟩, rfl, rfl⟩ := h
    obtain ⟨p, b, x, hv, hg, rfl⟩ := (run_deleteFromCash_iff hl).mp h₁
    rcases run_deleteOne_iff.mp h₂ with ⟨hn, -, rfl⟩ | ⟨-, he, rfl⟩
    · refine ⟨p, b, x, w.env, hv, hg, by simp [Lib.Conf.setEnv, Lib.Conf.setCash], fun _ hs => ?_⟩
      have hn' : w.stored k oid = none := by simpa [Lib.Conf.stored] using hn
      simp [hn'] at hs
    · obtain rfl := Option.some.inj he
      exact ⟨p, b, x, w.env.erase k oid, hv, hg, by simp [Lib.Conf.setEnv, Lib.Conf.setCash], fun _ _ => by
        simp [Database.get?_erase]⟩
  | failed h =>
    obtain ⟨p, b, x, hv, hg, rfl⟩ := (run_deleteFromCash_iff hl).mp h
    exact ⟨p, b, x, w.env, hv, hg, by simp [Lib.Conf.setEnv, Lib.Conf.setCash], fun hf => by cases hf⟩

/-- With something in the cache, `Delete` ends. -/
theorem exists_deleteEnds (hl : w.Held (w.cash k)) {p : ℕ} (hp : w.victim k oid = some p) :
    ∃ r w', DeleteEnds w k oid fails r w' := by
  obtain ⟨b, x, hg⟩ := hl p (victim_mem hp)
  obtain ⟨w₁, h₁⟩ : ∃ w₁, run (Controller.deleteFromCash k oid) w = .ok ((), w₁) :=
    ⟨_, (run_deleteFromCash_iff hl).mpr ⟨p, b, x, hp, hg, rfl⟩⟩
  cases fails with
  | true => exact ⟨none, w₁, .failed h₁⟩
  | false =>
    obtain ⟨n, w₂, h₂⟩ : ∃ n w₂, run (deleteOne k oid) w₁ = .ok (some n, w₂) := by
      cases hs : w₁.stored k oid with
      | none => exact ⟨0, w₁, run_deleteOne_iff.mpr (.inl ⟨hs, rfl, rfl⟩)⟩
      | some d => exact ⟨1, _, run_deleteOne_iff.mpr (.inr ⟨by simp [hs], rfl, rfl⟩)⟩
    refine ⟨some (decide (n = 1)), w₂, .answered ?_⟩
    rw [Controller.delete_eq]
    simp only [run_bind_iff, run_value_iff, run_pure_iff]
    exact ⟨(), w₁, h₁, some n, w₂, h₂, n, w₂, ⟨rfl, rfl⟩, rfl, rfl⟩

/-- The victim was cached and is not any more. -/
theorem DeleteEnds.cash {r : Option Bool} (hl : w.Held (w.cash k)) (h : DeleteEnds w k oid fails r w') :
    ∃ p, w.victim k oid = some p ∧ p ∈ w.cash k ∧ w'.cash k = (w.cash k).filter (· ≠ p) ∧
      ∀ q, q ≠ p → w'.heap.get q = w.heap.get q := by
  obtain ⟨p, b, x, db, hv, hg, rfl, -⟩ := h.effect hl
  refine ⟨p, hv, victim_mem hv, by simp, fun q hq => ?_⟩
  change (((w.setChanged k true).dismiss p b x)).heap.get q = _
  exact get_dismiss_of_ne (w.setChanged k true) p b x (by simpa using hg) hq

/-- The database answers, the document is stored, and one cached object has the id. -/
def DeleteReady (w : World) (k : Kind) (oid : Oid) (fails : Bool) : Prop :=
  fails = false ∧ (w.stored k oid).isSome ∧ ∃ p, ∀ q, q ∈ w.cash k ∧ w.idOf q = some oid ↔ q = p

theorem DeletesOnly.ready (hl : w.Held (w.cash k)) (h : DeletesOnly w k oid fails) : DeleteReady w k oid fails := by
  obtain ⟨⟨r, w', hend⟩, hall⟩ := h
  obtain ⟨hothers, htarget, -, hkept⟩ := hall r w' hend
  obtain ⟨p, hv, hp, hcash, -⟩ := hend.cash hl
  have hgone : p ∉ w'.cash k := by simp [hcash]
  have hstays : ¬ (w.stored k oid = none ∨ fails = true) := fun hn => hgone ((hkept hn).1 ▸ hp)
  rw [not_or, Bool.not_eq_true] at hstays
  obtain ⟨hst, hf⟩ := hstays
  have hid : w.idOf p = some oid := by
    by_contra hne
    exact hgone (hothers p hp hne).1
  refine ⟨hf, Option.isSome_iff_ne_none.mpr hst, p, fun q => ⟨fun ⟨hq, hq'⟩ => ?_, ?_⟩⟩
  · by_contra hne
    exact htarget q hq hq' (by simp [hcash, hq, hne])
  · rintro rfl
    exact ⟨hp, hid⟩

theorem DeleteReady.only (hl : w.Held (w.cash k)) (h : DeleteReady w k oid fails) : DeletesOnly w k oid fails := by
  obtain ⟨rfl, hs, p, hp⟩ := h
  obtain ⟨hin, hid⟩ := (hp p).mpr rfl
  have hv : w.victim k oid = some p := by
    obtain ⟨q, hq⟩ : ∃ q, w.cached k oid = some q := by
      cases hc : w.cached k oid with
      | some q => exact ⟨q, rfl⟩
      | none => exact absurd hid (Lib.Conf.cached_eq_none.mp hc p hin)
    obtain rfl := (hp q).mp ⟨Lib.Conf.cached_mem hq, Lib.Conf.cached_idOf hq⟩
    simp [Lib.Conf.victim, hq]
  refine ⟨exists_deleteEnds hl hv, fun r w' h => ?_⟩
  obtain ⟨p', b, x, db, -, -, hw', hdb⟩ := h.effect hl
  obtain ⟨q, hq, -, hcash, hget⟩ := h.cash hl
  obtain rfl := Option.some.inj (hq.symm.trans hv)
  refine ⟨fun q' hq' hne => ?_, fun q' hq' hid' => ?_, fun _ _ => ?_, ?_⟩
  · have hqne : q' ≠ q := fun he => hne (he ▸ hid)
    exact ⟨by simp [hcash, hq', hqne], by simp [Lib.Conf.standing, hget q' hqne]⟩
  · obtain rfl := (hp q').mp ⟨hq', hid'⟩
    simp [hcash]
  · obtain ⟨hgone, hr⟩ := hdb rfl hs
    exact ⟨by rw [hw']; exact hgone, hr⟩
  · rintro (hn | hf)
    · simp [hn] at hs
    · cases hf

/-- A call of `Delete` does only what it should exactly when the database answers, the document is stored, and one
cached object has the id. -/
theorem deletesOnly_iff (hl : w.Held (w.cash k)) : DeletesOnly w k oid fails ↔ DeleteReady w k oid fails :=
  ⟨fun h => h.ready hl, fun h => h.only hl⟩

/-- A cached account that is stored is deleted. -/
theorem deletesOnly_of_account : ∃ w : World, w.cash .accounts = [0] ∧ DeletesOnly w .accounts 0 false := by
  have hplay : ((Action.getFromDB .accounts 0 .admin).next? (World.start oneAccount)).any (fun w =>
      w.cash .accounts = [0] ∧ w.idOf 0 = some 0 ∧ (w.stored .accounts 0).isSome) = true := by decide
  obtain ⟨w, hw, hc⟩ := Option.any_eq_true .. |>.mp hplay
  obtain ⟨hcash, hid, hs⟩ := of_decide_eq_true hc
  have hl : w.Held (w.cash .accounts) :=
    ((sound_of_run (.snoc .nil trivial (Action.step_of_next? hw))).live .accounts).held
  refine ⟨w, hcash, (deletesOnly_iff hl).mpr ⟨rfl, hs, 0, fun q => ?_⟩⟩
  rw [hcash, List.mem_singleton]
  exact ⟨And.left, fun h => ⟨h, h ▸ hid⟩⟩

/-- Deleting an id nothing has takes another account out of the cache. -/
theorem not_deletesOnly_of_every_call :
    ¬ ∀ (w : World) k oid fails, w.Held (w.cash k) → DeletesOnly w k oid fails := by
  intro h
  have hplay : ((Action.getFromDB .accounts 0 .admin).next? (World.start oneAccount)).any (fun w =>
      w.cash .accounts = [0] ∧ (w.stored .accounts 7).isNone) = true := by decide
  obtain ⟨w, hw, hc⟩ := Option.any_eq_true .. |>.mp hplay
  obtain ⟨hcash, hs⟩ := of_decide_eq_true hc
  have hl : w.Held (w.cash .accounts) :=
    ((sound_of_run (.snoc .nil trivial (Action.step_of_next? hw))).live .accounts).held
  obtain ⟨-, hstored, -⟩ := (h w .accounts 7 false hl).ready hl
  rw [Option.isNone_iff_eq_none.mp hs] at hstored
  cases hstored

end Cbt
