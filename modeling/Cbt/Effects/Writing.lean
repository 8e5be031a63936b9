import Cbt.Effects.Reading

/-! What the writes do. `Update` replaces the stored document by the one its
object describes and gives the object that document; `Delete` takes the first
cached object with the id, or the first of all, out of the cache; `Add` stores
the document of a plain object and caches an object built from it. -/

namespace Cbt

open Lib.Command (run_bind_iff run_pure_iff run_fault_iff run_ofExcept_iff)

variable {w w' : World} {k : Kind}

/-! ### Documents -/

/-- A reference is written as `NULL`, or as the id of an object that exists. -/
theorem buildRef_eq_ok {h : Memory} {key : String} {v : Pointer} {d : Doc} (hd : buildRef h key v = .ok d) :
    d = [(key, nullValue)] ∧ (v = .null ∨ ∃ q b, v = .to q ∧ header h q = .ok b ∧ b.isExist = false) ∨
      ∃ q b, v = .to q ∧ header h q = .ok b ∧ b.isExist = true ∧ d = [(key, .oid b.id)] := by
  cases v with
  | uninit => cases hd
  | null => cases hd; exact .inl ⟨rfl, .inl rfl⟩
  | «to» q =>
    simp only [buildRef] at hd
    cases hq : header h q with
    | error e => simp [hq] at hd
    | ok b =>
      simp only [hq, Except.ok.injEq] at hd
      cases hb : b.isExist with
      | true => exact .inr ⟨q, b, rfl, hq, hb, by simp [← hd, hb]⟩
      | false => exact .inl ⟨by simp [← hd, hb], .inr ⟨q, b, rfl, hq, hb⟩⟩

/-! ### Update -/

/-- The document of an object from the database starts with its `_id`. -/
theorem toDoc_id {h : Memory} {b : IFromDB} {x : Fields} {d : Doc} (hd : Obj.toDoc h ⟨some b, x⟩ = .ok d) :
    d.get? "_id" = some (.oid b.id) := by
  simp only [Obj.toDoc, bind, Except.bind, pure, Except.pure] at hd
  split at hd
  · cases hd
  · cases hd; rfl

/-- An object takes a document. -/
def IFromDB.withDoc (b : IFromDB) (d : Doc) : IFromDB := { b with doc := d }

/-- The document an object describes replaces the stored one. -/
def Lib.Conf.refresh (w : World) (k : Kind) (el : ℕ) (b : IFromDB) (x : Fields) (d : Doc)
    (hd : Obj.toDoc w.heap ⟨some b, x⟩ = .ok d) : World :=
  (w.setEnv (w.env.replace k b.id d (toDoc_id hd))).put el ⟨some (b.withDoc d), x⟩

section
variable {el : ℕ} {b : IFromDB} {x : Fields} {d : Doc} (hd : Obj.toDoc w.heap ⟨some b, x⟩ = .ok d)

@[simp] theorem heap_refresh : (w.refresh k el b x d hd).heap = w.heap.set el ⟨some (b.withDoc d), x⟩ := rfl
@[simp] theorem cash_refresh : (w.refresh k el b x d hd).cash = w.cash := rfl
@[simp] theorem isChanged_refresh : (w.refresh k el b x d hd).isChanged = w.isChanged := rfl

theorem stored_refresh (hs : (w.stored k b.id).isSome) (k' : Kind) (o : Oid) :
    (w.refresh k el b x d hd).stored k' o = if k' = k ∧ o = b.id then some d else w.stored k' o := by
  obtain ⟨d₀, h₀⟩ := Option.isSome_iff_exists.mp hs
  simp only [Lib.Conf.refresh, Lib.Conf.stored_put, Lib.Conf.stored_setEnv, Database.get?_replace]
  split_ifs
  · change (w.stored k b.id).map _ = _
    simp [h₀]
  · rfl

end

theorem run_update_iff {el : ℕ} {r : Bool} :
    run (Controller.update k el) w = .ok (r, w') ↔
      ∃ b x d hd, w.heap.get el = some ⟨some b, x⟩ ∧ x.kind = k ∧ (w.stored k b.id).isSome ∧ r = true ∧
        w' = w.refresh k el b x d hd := by
  simp only [Controller.update, run_bind_iff, run_obj_iff]
  constructor
  · rintro ⟨o, _, ⟨ho, rfl⟩, h⟩
    by_cases hk : o.fields.kind = k
    · simp only [hk, ne_eq, not_true_eq_false, if_false, run_bind_iff, run_toDoc_iff, run_fromDB_iff] at h
      obtain ⟨d, _, ⟨⟨o', ho', hd⟩, rfl⟩, b, _, ⟨hb, rfl⟩, a, w₁, h₁, h₂⟩ := h
      obtain rfl := Option.some.inj (ho.symm.trans ho')
      obtain ⟨x, hx⟩ := header_eq_ok.mp hb
      obtain rfl := Option.some.inj (ho.symm.trans hx)
      refine ⟨b, x, d, hd, ho, hk, ?_⟩
      simp only [run_findOne_byId_iff] at h₂
      obtain ⟨_, _, ⟨rfl, rfl⟩, h₂⟩ := h₂
      rcases run_replaceOne_iff.mp h₁ with ⟨hs, -, rfl⟩ | ⟨hid, hs, rfl, rfl⟩
      · simp [hs, run_value_iff] at h₂
      · obtain ⟨d₀, h₀⟩ := Option.isSome_iff_exists.mp hs
        have hst : (w.setEnv (w.env.replace k b.id d hid)).stored k b.id = some d := by
          rw [Lib.Conf.stored_setEnv, Database.get?_replace, if_pos ⟨rfl, rfl⟩]
          change (w.stored k b.id).map _ = _
          simp [h₀]
        simp only [hst, run_value_iff, run_modifyFromDB_iff, run_pure_iff, Option.some.injEq] at h₂
        obtain ⟨_, _, ⟨rfl, rfl⟩, _, _, ⟨b', x', hg, rfl⟩, _, _, ⟨rfl, rfl⟩, rfl, rfl⟩ := h₂
        rw [Lib.Conf.heap_setEnv, ho, Option.some.injEq, Obj.mk.injEq, Option.some.injEq] at hg
        obtain ⟨rfl, rfl⟩ := hg
        exact ⟨hs, by simp, rfl⟩
    · simp [hk, run_bind_iff] at h
  · rintro ⟨b, x, d, hd, ho, rfl, hs, rfl, rfl⟩
    obtain ⟨d₀, h₀⟩ := Option.isSome_iff_exists.mp hs
    have hst : (w.setEnv (w.env.replace x.kind b.id d (toDoc_id hd))).stored x.kind b.id = some d := by
      rw [Lib.Conf.stored_setEnv, Database.get?_replace, if_pos ⟨rfl, rfl⟩]
      change (w.stored x.kind b.id).map _ = _
      simp [h₀]
    refine ⟨_, w, ⟨ho, rfl⟩, ?_⟩
    simp only [ne_eq, not_true_eq_false, if_false, run_bind_iff, run_toDoc_iff, run_fromDB_iff]
    let w₁ := w.setEnv (w.env.replace x.kind b.id d (toDoc_id hd))
    refine ⟨d, w, ⟨⟨_, ho, hd⟩, rfl⟩, b, w, ⟨header_eq_ok.mpr ⟨x, ho⟩, rfl⟩, some 1, w₁,
      run_replaceOne_iff.mpr (.inr ⟨toDoc_id hd, hs, rfl, rfl⟩), some d, w₁, ?_, d, w₁, run_value_iff.mpr ⟨rfl, rfl⟩,
      ⟨⟩, _, run_modifyFromDB_iff.mpr ⟨b, x, ho, rfl⟩, 1, _, run_value_iff.mpr ⟨rfl, rfl⟩, ?_⟩
    · exact run_findOne_byId_iff.mpr ⟨hst, rfl⟩
    · simp [Lib.Conf.refresh, IFromDB.withDoc, w₁]

/-! ### Delete -/

/-- The cached object `Delete` takes: the first with the id, or the first of all. -/
def Lib.Conf.victim (w : World) (k : Kind) (oid : Oid) : Option ℕ :=
  (w.cached k oid).or (w.cash k).head?

theorem victim_mem {oid : Oid} {p : ℕ} (h : w.victim k oid = some p) : p ∈ w.cash k := by
  rcases Option.or_eq_some_iff.mp h with h | ⟨-, h⟩
  · exact Lib.Conf.cached_mem h
  · exact List.mem_of_mem_head? h

/-- The cached pointers lead to objects from the database. -/
def Lib.Conf.Held (w : World) (l : List ℕ) : Prop := ∀ p ∈ l, ∃ b x, w.heap.get p = some ⟨some b, x⟩

theorem run_iterForDelete_iff {oid : Oid} {l : List ℕ} (hl : w.Held l) {first p : ℕ} :
    run (Controller.iterForDelete oid first l) w = .ok (p, w') ↔
      (l.find? fun p => w.idOf p = some oid).getD first = p ∧ w = w' := by
  induction l with
  | nil => simp [Controller.iterForDelete]
  | cons q l ih =>
    have ih := ih fun r hr => hl r (by simp [hr])
    obtain ⟨b, x, hq⟩ := hl q (by simp)
    have hid : w.idOf q = some b.id := Lib.Conf.idOf_of_get hq
    have hbody : run (Controller.iterForDelete oid first (q :: l)) w = .ok (p, w') ↔
        run (if b.id = oid then pure q else Controller.iterForDelete oid first l) w = .ok (p, w') := by
      simp only [Controller.iterForDelete, run_bind_iff, run_fromDB_iff]
      constructor
      · rintro ⟨b', _, ⟨hb', rfl⟩, h⟩
        obtain rfl := Except.ok.inj (hb'.symm.trans (header_eq_ok.mpr ⟨x, hq⟩))
        exact h
      · exact fun h => ⟨b, w, ⟨header_eq_ok.mpr ⟨x, hq⟩, rfl⟩, h⟩
    rw [hbody]
    by_cases he : b.id = oid
    · rw [if_pos he, List.find?_cons_of_pos (by simp [hid, he]), run_pure_iff, Option.getD_some]
    · rw [if_neg he, List.find?_cons_of_neg (by simp [hid, he])]
      exact ih

/-- An object loses an owner and stops existing. -/
def IFromDB.flagged (b : IFromDB) : IFromDB := { b.own (-1) with isExist := false }

/-- An object loses an owner and is destroyed, or flagged. -/
def Lib.Conf.dismiss (w : World) (p : ℕ) (b : IFromDB) (x : Fields) : World :=
  if b.ownedCount = 1 then w.free p else w.put p ⟨some b.flagged, x⟩

section
variable (w) (p : ℕ) (b : IFromDB) (x : Fields)

@[simp] theorem env_dismiss : (w.dismiss p b x).env = w.env := by unfold Lib.Conf.dismiss; split_ifs <;> rfl
@[simp] theorem cash_dismiss : (w.dismiss p b x).cash = w.cash := by unfold Lib.Conf.dismiss; split_ifs <;> rfl
@[simp] theorem isChanged_dismiss : (w.dismiss p b x).isChanged = w.isChanged := by
  unfold Lib.Conf.dismiss; split_ifs <;> rfl
@[simp] theorem next_dismiss : (w.dismiss p b x).heap.next = w.heap.next := by
  unfold Lib.Conf.dismiss; split_ifs <;> simp

theorem get_dismiss_of_ne (hp : w.heap.get p = some ⟨some b, x⟩) {q : ℕ} (hq : q ≠ p) :
    (w.dismiss p b x).heap.get q = w.heap.get q := by
  unfold Lib.Conf.dismiss
  split_ifs
  · simp [Lib.Heap.get_free, hq]
  · simp [Lib.Heap.get_set _ hp, hq]

end

/-- `Delete` of an id. -/
structure Deleted (w : World) (k : Kind) (oid : Oid) (w' : World) : Prop where
  effect : ∃ p b x db, w.victim k oid = some p ∧ w.heap.get p = some ⟨some b, x⟩ ∧
    w' = ((((w.setChanged k true).dismiss p b x).setCash k ((w.cash k).filter (· ≠ p))).setEnv db) ∧
    ∀ k' o, db.get? k' o = if k' = k ∧ o = oid then none else w.stored k' o
  next : w'.env.nextOid = w.env.nextOid

/-- Every object was there before, with its id and its values. -/
theorem Deleted.back {oid : Oid} (h : Deleted w k oid w') {q : ℕ} {b' : IFromDB} {y : Fields}
    (hq : w'.heap.get q = some ⟨some b', y⟩) : ∃ b, w.heap.get q = some ⟨some b, y⟩ ∧ b.id = b'.id := by
  obtain ⟨p, b, x, db, -, hp, rfl, -⟩ := h.effect
  have hp₁ : (w.setChanged k true).heap.get p = some ⟨some b, x⟩ := hp
  rw [Lib.Conf.heap_setEnv, Lib.Conf.heap_setCash] at hq
  by_cases hne : q = p
  · subst hne
    unfold Lib.Conf.dismiss at hq
    split_ifs at hq
    · simp [Lib.Heap.get_free] at hq
    · rw [Lib.Conf.get_put hp₁, if_pos rfl] at hq
      obtain ⟨rfl, rfl⟩ : b.flagged = b' ∧ x = y := by simpa using hq
      exact ⟨b, hp, rfl⟩
  · rw [get_dismiss_of_ne _ _ _ _ hp₁ hne] at hq
    exact ⟨b', hq, rfl⟩

theorem put_put (p : ℕ) (o o' : Obj) : (w.put p o).put p o' = w.put p o' := by
  simp [Lib.Conf.put, Lib.Conf.setHeap, Lib.Heap.set, Lib.Conf.heap]

/-- Everything `Delete` does before it calls the database. -/
def Controller.deleteFromCash (k : Kind) (oid : Oid) : Cmd Unit := do
  setChanged k true
  let l ← cash k
  match l with
  | [] => Lib.Command.fault .endIterator
  | first :: _ =>
    let p ← iterForDelete oid first l
    own p (-1)
    if (← fromDB p).ownedCount = 0 then destroy p
    else modifyFromDB p fun b => { b with isExist := false }
    remove k p

theorem Controller.delete_eq (k : Kind) (oid : Oid) : delete k oid = do
    deleteFromCash k oid
    return (← value (← deleteOne k oid)) = 1 := by
  simp only [delete, deleteFromCash, bind_assoc]
  congr 1; funext _; congr 1; funext l
  cases l with
  | nil => rfl
  | cons first l =>
    simp only [bind_assoc]
    congr 1; funext p; congr 1; funext _; congr 1; funext b
    split_ifs <;> rw [bind_assoc]

/-- An object loses an owner, and then is destroyed or flagged. -/
theorem run_dismiss_iff {p : ℕ} {m : Cmd Unit} {u : Unit} :
    run (do
      own p (-1)
      if (← fromDB p).ownedCount = 0 then destroy p
      else modifyFromDB p fun b => { b with isExist := false }
      m) w = .ok (u, w') ↔
      ∃ b x, w.heap.get p = some ⟨some b, x⟩ ∧ run m (w.dismiss p b x) = .ok (u, w') := by
  simp only [run_bind_iff, run_own_iff, run_fromDB_iff]
  constructor
  · rintro ⟨_, _, ⟨b, x, hg, rfl⟩, b₁, _, ⟨hb₁, rfl⟩, h⟩
    have hg₁ : (w.put p ⟨some (b.own (-1)), x⟩).heap.get p = some ⟨some (b.own (-1)), x⟩ := by
      rw [Lib.Conf.get_put hg, if_pos rfl]
    obtain rfl := Except.ok.inj ((header_eq_ok.mpr ⟨x, hg₁⟩).symm.trans hb₁)
    refine ⟨b, x, hg, ?_⟩
    by_cases hn : b.ownedCount = 1
    · have h0 : (b.own (-1)).ownedCount = 0 := by simp [IFromDB.own, hn]
      simp only [h0, if_true, run_bind_iff, run_destroy_iff] at h
      obtain ⟨_, _, ⟨-, rfl⟩, h⟩ := h
      simpa [Lib.Conf.dismiss, hn, free_put] using h
    · have h0 : ¬ (b.own (-1)).ownedCount = 0 := by simp [IFromDB.own]; omega
      simp only [h0, if_false, run_bind_iff, run_modifyFromDB_iff] at h
      obtain ⟨_, _, ⟨b₂, x₂, hg₂, rfl⟩, h⟩ := h
      obtain ⟨rfl, rfl⟩ : b.own (-1) = b₂ ∧ x = x₂ := by
        simpa using Obj.mk.inj (Option.some.inj (hg₁.symm.trans hg₂))
      simpa [Lib.Conf.dismiss, hn, put_put, IFromDB.flagged] using h
  · rintro ⟨b, x, hg, h⟩
    have hg₁ : (w.put p ⟨some (b.own (-1)), x⟩).heap.get p = some ⟨some (b.own (-1)), x⟩ := by
      rw [Lib.Conf.get_put hg, if_pos rfl]
    refine ⟨⟨⟩, _, ⟨b, x, hg, rfl⟩, _, _, ⟨header_eq_ok.mpr ⟨x, hg₁⟩, rfl⟩, ?_⟩
    by_cases hn : b.ownedCount = 1
    · have h0 : (b.own (-1)).ownedCount = 0 := by simp [IFromDB.own, hn]
      simp only [h0, if_true, run_bind_iff, run_destroy_iff]
      refine ⟨⟨⟩, _, ⟨⟨_, hg₁⟩, rfl⟩, ?_⟩
      simpa [Lib.Conf.dismiss, hn, free_put] using h
    · have h0 : ¬ (b.own (-1)).ownedCount = 0 := by simp [IFromDB.own]; omega
      simp only [h0, if_false, run_bind_iff, run_modifyFromDB_iff]
      refine ⟨⟨⟩, _, ⟨_, _, hg₁, rfl⟩, ?_⟩
      simpa [Lib.Conf.dismiss, hn, put_put, IFromDB.flagged] using h

/-- What `Delete` does before its call: the victim is dismissed and leaves the cache. -/
theorem run_deleteFromCash_iff {oid : Oid} {u : Unit} (hl : w.Held (w.cash k)) :
    run (Controller.deleteFromCash k oid) w = .ok (u, w') ↔ ∃ p b x, w.victim k oid = some p ∧
      w.heap.get p = some ⟨some b, x⟩ ∧
        ((w.setChanged k true).dismiss p b x).setCash k ((w.cash k).filter (· ≠ p)) = w' := by
  simp only [Controller.deleteFromCash, run_bind_iff, run_setChanged_iff, run_cash_iff]
  cases hc : w.cash k with
  | nil =>
    constructor
    · rintro ⟨_, _, rfl, l, _, ⟨hl', rfl⟩, h⟩
      obtain rfl : l = [] := by simpa [hc] using hl'.symm
      exact ((run_fault_iff _).mp h).elim
    · rintro ⟨p, b, x, hv, -⟩
      have := victim_mem hv
      simp [hc] at this
  | cons first l =>
    have hl' : (w.setChanged k true).Held (first :: l) := hc ▸ hl
    have hv : w.victim k oid = some (((first :: l).find? fun p => w.idOf p = some oid).getD first) := by
      rw [Lib.Conf.victim, Lib.Conf.cached, hc, List.head?_cons]
      cases (first :: l).find? fun p => w.idOf p = some oid <;> rfl
    have hcash : ((w.setChanged k true).cash k) = first :: l := by simpa using hc
    have hstep : ∀ p, run (do
        own p (-1)
        if (← fromDB p).ownedCount = 0 then destroy p
        else modifyFromDB p fun b => { b with isExist := false }
        Controller.remove k p : Cmd Unit) (w.setChanged k true) = .ok (u, w') ↔ ∃ b x,
          w.heap.get p = some ⟨some b, x⟩ ∧
            ((w.setChanged k true).dismiss p b x).setCash k ((first :: l).filter (· ≠ p)) = w' := by
      intro p
      simp only [run_dismiss_iff, run_remove_iff, cash_dismiss, hcash, Lib.Conf.heap_setChanged]
    constructor
    · rintro ⟨_, _, rfl, l', _, ⟨hl'', rfl⟩, h⟩
      obtain rfl : l' = first :: l := by rw [← hl'', hcash]
      obtain ⟨p, w₁, hp, h⟩ := (run_bind_iff _).mp h
      obtain ⟨rfl, rfl⟩ := (run_iterForDelete_iff hl').mp hp
      obtain ⟨b, x, hg, he⟩ := (hstep _).mp h
      exact ⟨_, b, x, hv, hg, he⟩
    · rintro ⟨p, b, x, hp, hg, he⟩
      refine ⟨⟨⟩, _, rfl, first :: l, _, ⟨hcash, rfl⟩, (run_bind_iff _).mpr ⟨p, _, ?_, (hstep p).mpr ⟨b, x, hg, he⟩⟩⟩
      exact (run_iterForDelete_iff hl').mpr ⟨Option.some.inj (hv.symm.trans hp), rfl⟩

theorem Lib.Conf.Live.held (hw : w.Live k) : w.Held (w.cash k) := by
  intro p hp
  obtain ⟨b, x, hg, -⟩ := hw p hp
  exact ⟨b, x, hg⟩

theorem run_delete {oid : Oid} {r : Bool} (hw : Sound w)
    (h : run (Controller.delete k oid) w = .ok (r, w')) : Deleted w k oid w' := by
  rw [Controller.delete_eq] at h
  simp only [run_bind_iff, run_value_iff, run_pure_iff] at h
  obtain ⟨_, w₁, h₁, a, w₂, h₂, a', _, ⟨rfl, rfl⟩, -, rfl⟩ := h
  obtain ⟨p, b, x, hv, hg, rfl⟩ := (run_deleteFromCash_iff (hw.live k).held).mp h₁
  rcases run_deleteOne_iff.mp h₂ with ⟨hn, -, rfl⟩ | ⟨-, -, rfl⟩
  · refine ⟨⟨p, b, x, w.env, hv, hg, by simp [Lib.Conf.setEnv, Lib.Conf.setCash], fun k' o => ?_⟩, by simp⟩
    split_ifs with he
    · obtain ⟨rfl, rfl⟩ := he
      simpa [Lib.Conf.stored] using hn
    · rfl
  · refine ⟨⟨p, b, x, w.env.erase k oid, hv, hg, by simp [Lib.Conf.setEnv, Lib.Conf.setCash], fun k' o => ?_⟩, by simp⟩
    simp [Database.get?_erase, Lib.Conf.stored]

/-! ### Add -/

/-- The document of a plain object of the controller. -/
theorem run_elementDoc_iff {e : ℕ} {d : Doc} :
    run (Controller.elementDoc k e) w = .ok (d, w') ↔
      ∃ x, w.heap.get e = some ⟨none, x⟩ ∧ x.kind = k ∧ x.toDoc w.heap = .ok d ∧ w = w' := by
  have hdoc : ∀ {x : Fields}, (⟨none, x⟩ : Obj).toDoc w.heap = .ok d ↔ x.toDoc w.heap = .ok d := by
    intro x
    simp only [Obj.toDoc, bind, Except.bind, pure, Except.pure]
    split <;> simp_all
  simp only [Controller.elementDoc, run_bind_iff, run_obj_iff]
  constructor
  · rintro ⟨⟨c, x⟩, _, ⟨ho, rfl⟩, h⟩
    by_cases hc : c.isSome ∨ x.kind ≠ k
    · simp [hc, run_bind_iff] at h
    · simp only [hc, if_false, run_toDoc_iff] at h
      obtain ⟨⟨o, ho', hd⟩, rfl⟩ := h
      obtain rfl := Option.some.inj (ho.symm.trans ho')
      simp only [not_or, not_not, Option.not_isSome_iff_eq_none] at hc
      obtain ⟨rfl, hk⟩ := hc
      exact ⟨x, ho, hk, hdoc.mp hd, rfl⟩
  · rintro ⟨x, ho, rfl, hd, rfl⟩
    refine ⟨_, w, ⟨ho, rfl⟩, ?_⟩
    simp only [Option.isSome_none, Bool.false_eq_true, ne_eq, not_true_eq_false, or_self, if_false,
      run_toDoc_iff]
    exact ⟨⟨_, ho, hdoc.mpr hd⟩, trivial⟩

/-- The document of a plain object is stored under the next id, and the object is destroyed. -/
def Lib.Conf.post (w : World) (k : Kind) (e : ℕ) (d : Doc) : World :=
  ((w.setChanged k true).free e).setEnv (w.env.insert k d)

section
variable {e : ℕ} {d : Doc}

@[simp] theorem env_post : (w.post k e d).env = w.env.insert k d := rfl
@[simp] theorem heap_post : (w.post k e d).heap = w.heap.free e := rfl
@[simp] theorem cash_post : (w.post k e d).cash = w.cash := by simp [Lib.Conf.post]
theorem isChanged_post (k' : Kind) : (w.post k e d).isChanged k' = if k' = k then true else w.isChanged k' := by
  simp [Lib.Conf.post, Lib.Conf.isChanged_setChanged]

theorem stored_post (k' : Kind) (o : Oid) : (w.post k e d).stored k' o =
    if k' = k ∧ o = w.env.nextOid then some (Collection.withId w.env.nextOid d) else w.stored k' o := by
  simp only [Lib.Conf.stored, env_post, Database.get?_insert]
  split_ifs with h
  · rw [h.2]
  · rfl

@[simp] theorem stored_post_new : (w.post k e d).stored k w.env.nextOid = some (Collection.withId w.env.nextOid d) := by
  simp [stored_post]

end

/-- `Add` of the template. -/
theorem run_add_iff {e : ℕ} {r : Option ℕ} :
    run (Controller.add k e) w = .ok (r, w') ↔
      ∃ x d o, w.heap.get e = some ⟨none, x⟩ ∧ x.kind = k ∧ x.toDoc w.heap = .ok d ∧ d.get? "_id" = none ∧
        k.dbClass.ofDoc (Collection.withId w.env.nextOid d) = .ok o ∧ r = some w.heap.next ∧
        w' = (w.post k e d).load k (o.own 1) := by
  simp only [Controller.add, run_bind_iff, run_setChanged_iff, run_elementDoc_iff, run_insertOne_iff,
    run_destroy_iff]
  constructor
  · rintro ⟨_, _, rfl, d, _, ⟨x, hx, hk, hd, rfl⟩, _, _, ⟨hid, rfl, rfl⟩, _, _, ⟨-, rfl⟩, h⟩
    simp only [run_bind_iff, run_findOne_byId_iff, run_construct_iff, run_pushBack_iff, run_pure_iff] at h
    obtain ⟨_, _, ⟨hdoc, rfl⟩, doc, _, hv, _, _, ⟨o, ho, rfl, rfl⟩, _, w₁, h₁, _, _, rfl, rfl, rfl⟩ := h
    obtain ⟨rfl, rfl⟩ := run_value_iff.mp hv
    have hs := stored_post_new (w := w) (k := k) (e := e) (d := d)
    change (w.post k e d).stored k w.env.nextOid = some doc at hdoc
    rw [hs, Option.some.injEq] at hdoc
    subst hdoc
    obtain rfl := (own_push (ofDoc_isSome ho) 1 rfl).mp h₁
    exact ⟨x, d, o, hx, hk, hd, hid, ho, by simp, rfl⟩
  · rintro ⟨x, d, o, hx, hk, hd, hid, ho, rfl, rfl⟩
    refine ⟨⟨⟩, _, rfl, d, _, ⟨x, hx, hk, hd, rfl⟩, _, _, ⟨hid, rfl, rfl⟩, ⟨⟩, _, ⟨⟨_, hx⟩, rfl⟩, ?_⟩
    simp only [run_bind_iff, run_findOne_byId_iff, run_construct_iff, run_pushBack_iff, run_pure_iff]
    refine ⟨some (Collection.withId w.env.nextOid d), w.post k e d, ⟨stored_post_new (e := e), rfl⟩, _, _,
      run_value_iff.mpr ⟨rfl, rfl⟩, _, _, ⟨o, ho, rfl, rfl⟩, ⟨⟩, _, (own_push (ofDoc_isSome ho) 1 rfl).mpr rfl,
      ⟨⟩, _, rfl, by simp, rfl⟩

end Cbt
