import Cbt.Codec.Shape

/-! What the operations on members store. A document depends on the memory through
the id and the existence of the objects that are referred to, so the documents
that an operation writes one after the other are those the objects describe at
its start. -/

namespace Cbt

open Lib.Command (run_bind_iff run_pure_iff run_fault_iff run_ofExcept_iff)

variable {w w₁ w' : World} {h h' : Memory}

/-- What a document needs of an object that is referred to: its id, and whether it exists. -/
def ident (h : Memory) (p : ℕ) : Except Fault (Oid × Bool) := (fun b => (b.id, b.isExist)) <$> header h p

theorem value_eq_ident (h : Memory) (p : ℕ) :
    (Pointer.to p).value h = (fun i => if i.2 then .oid i.1 else nullValue) <$> ident h p := by
  simp only [Pointer.value, ident]
  cases header h p <;> rfl

theorem value_congr (hi : ∀ p, ident h' p = ident h p) (v : Pointer) : v.value h' = v.value h := by
  cases v with
  | uninit => rfl
  | null => rfl
  | «to» p => rw [value_eq_ident, value_eq_ident, hi]

theorem existingIds_cons (h : Memory) (p : ℕ) (l : List ℕ) :
    existingIds h (p :: l) = do
      let i ← ident h p
      let ids ← existingIds h l
      return if i.2 then i.1 :: ids else ids := by
  simp only [existingIds, ident]
  cases header h p <;> cases existingIds h l <;> rfl

theorem existingIds_congr (hi : ∀ p, ident h' p = ident h p) (l : List ℕ) : existingIds h' l = existingIds h l := by
  induction l with
  | nil => rfl
  | cons p l ih => rw [existingIds_cons, existingIds_cons, ih, hi]

theorem writes_congr (hi : ∀ p, ident h' p = ident h p) {x : Fields} {ref : RefField → Bson} {members : Bson} :
    x.Writes h' ref members ↔ x.Writes h ref members := by
  constructor <;> intro hw <;> refine ⟨fun f v hv => ?_, fun g hg => ?_⟩
  · rw [← value_congr hi, hw.ref f v hv]
  · rw [membersValue, ← existingIds_congr hi]
    exact hw.members g hg
  · rw [value_congr hi, hw.ref f v hv]
  · rw [membersValue, existingIds_congr hi]
    exact hw.members g hg

/-- Memories with the same ids and existence describe the same documents. -/
theorem toDoc_congr (hi : ∀ p, ident h' p = ident h p) {x : Fields} {d : Doc} :
    x.toDoc h' = .ok d ↔ x.toDoc h = .ok d := by
  simp only [toDoc_eq_ok, writes_congr hi]

theorem ident_of_get {p : ℕ} {b : IFromDB} {x : Fields} (hp : h.get p = some ⟨some b, x⟩) :
    ident h p = .ok (b.id, b.isExist) := by
  rw [ident, header_eq_ok.mpr ⟨x, hp⟩]
  rfl

/-- An object that keeps its id and its existence changes no document. -/
theorem ident_set {p : ℕ} {b b' : IFromDB} {x x' : Fields} (hp : h.get p = some ⟨some b, x⟩) (hid : b'.id = b.id)
    (he : b'.isExist = b.isExist) (q : ℕ) : ident (h.set p ⟨some b', x'⟩) q = ident h q := by
  by_cases hq : q = p
  · subst hq
    rw [ident_of_get hp, ident_of_get (b := b') (x := x') (by rw [Lib.Heap.get_set _ hp, if_pos rfl]), hid, he]
  · simp only [ident, header, Lib.Heap.get_set _ hp, if_neg hq]

theorem value_of_is {p : ℕ} {i : Oid} {c : DBClass} (hp : w.Is p i c) : (Pointer.to p).value w.heap = .ok (.oid i) := by
  obtain ⟨b, x, hg, hb, rfl, -⟩ := hp
  simp [Pointer.value, header_eq_ok.mpr ⟨x, hg⟩, hb]

@[simp] theorem IFromDB.id_own (b : IFromDB) (n : ℤ) : (b.own n).id = b.id := rfl

/-! ### Update -/

/-- `Update` of an object whose document is stored and can be written. -/
theorem run_update_of {p : ℕ} {b : IFromDB} {x : Fields} {d : Doc} (hp : w.heap.get p = some ⟨some b, x⟩)
    (hs : (w.stored x.kind b.id).isSome) (hd : x.toDoc w.heap = .ok d) :
    ∃ w', run (Controller.update x.kind p) w = .ok (true, w') ∧
      w'.heap = w.heap.set p ⟨some (b.withDoc (("_id", .oid b.id) :: d)), x⟩ ∧ w'.cash = w.cash ∧
      w'.isChanged = w.isChanged ∧ w'.env.nextOid = w.env.nextOid ∧
      ∀ k o, w'.stored k o = if k = x.kind ∧ o = b.id then some (("_id", .oid b.id) :: d) else w.stored k o := by
  have hd' : Obj.toDoc w.heap ⟨some b, x⟩ = .ok (("_id", .oid b.id) :: d) := toDoc_db_iff.mpr ⟨d, hd, rfl⟩
  exact ⟨_, run_update_iff.mpr ⟨b, x, _, hd', hp, rfl, hs, rfl, rfl⟩, rfl, rfl, rfl, rfl, stored_refresh hd' hs⟩

/-- What a run of `Update` does. -/
theorem update_effect {k : Kind} {p : ℕ} {r : Bool} (h : run (Controller.update k p) w = .ok (r, w')) :
    ∃ b x d, w.heap.get p = some ⟨some b, x⟩ ∧ x.kind = k ∧ x.toDoc w.heap = .ok d ∧ (w.stored k b.id).isSome ∧
      w'.heap = w.heap.set p ⟨some (b.withDoc (("_id", .oid b.id) :: d)), x⟩ ∧ w'.cash = w.cash ∧
      w'.isChanged = w.isChanged ∧ w'.env.nextOid = w.env.nextOid ∧
      ∀ k' o, w'.stored k' o = if k' = k ∧ o = b.id then some (("_id", .oid b.id) :: d) else w.stored k' o := by
  obtain ⟨b, x, d, hd, hp, rfl, hs, -, rfl⟩ := run_update_iff.mp h
  obtain ⟨d', hd', rfl⟩ := toDoc_db_iff.mp hd
  exact ⟨b, x, d', hp, rfl, hd', hs, rfl, rfl, rfl, rfl, stored_refresh hd hs⟩

/-! ### Enrolment -/

/-- A student enters a group or leaves it: the two documents are replaced by those the two objects describe with
other students and another group. -/
structure Moved (w : World) (this stud : ℕ) (bg bs : IFromDB) (g : Group) (s : StudentInfo) (students : List ℕ)
    (group : Pointer) (w' : World) : Prop where
  docs : ∃ dg ds, (Fields.group { g with students }).toDoc w.heap = .ok dg ∧
    (Fields.student { s with group }).toDoc w.heap = .ok ds ∧
    (∀ k o, w'.stored k o =
      if k = .groups ∧ o = bg.id then some (("_id", .oid bg.id) :: dg)
      else if k = .infos ∧ o = bs.id then some (("_id", .oid bs.id) :: ds) else w.stored k o) ∧
    (∃ n, w'.heap.get this =
      some ⟨some ((bg.withDoc (("_id", .oid bg.id) :: dg)).own n), .group { g with students }⟩) ∧
    ∃ n, w'.heap.get stud = some ⟨some ((bs.withDoc (("_id", .oid bs.id) :: ds)).own n), .student { s with group }⟩
  group_stored : (w.stored .groups bg.id).isSome
  info_stored : (w.stored .infos bs.id).isSome
  other : ∀ q, q ≠ this → q ≠ stud → w'.heap.get q = w.heap.get q
  next : w'.heap.next = w.heap.next
  cash : w'.cash = w.cash
  isChanged : w'.isChanged = w.isChanged
  nextOid : w'.env.nextOid = w.env.nextOid

/-- The steps of an enrolment and of an expulsion from the group's update on. -/
theorem moved_of_steps {this stud : ℕ} {c : Option IFromDB} {bs : IFromDB} {g : Group} {s : StudentInfo}
    {students : List ℕ} {v : Option ℕ} {n : ℤ} {w₂ w₃ w₄ : World} (hs : w.heap.get stud = some ⟨some bs, .student s⟩)
    (hg : w.heap.get this = some ⟨c, .group g⟩) (hv : v = none ∨ v = some this)
    (h₂ : run (Controller.update .groups this) (w.put this ⟨c, .group { g with students }⟩) = .ok (true, w₂))
    (h₃ : run (setRef .group stud v) w₂ = .ok ((), w₃)) (h₄ : run (Controller.update .infos stud) w₃ = .ok (true, w₄))
    (h₅ : run (own stud n) w₄ = .ok ((), w')) :
    ∃ bg, c = some bg ∧ Moved w this stud bg bs g s students (.ofOption v) w' := by
  have hne : stud ≠ this := by
    rintro rfl
    simp [hs] at hg
  have hg₁ : (w.put this ⟨c, .group { g with students }⟩).heap.get this = some ⟨c, .group { g with students }⟩ := by
    rw [Lib.Conf.get_put hg, if_pos rfl]
  obtain ⟨bg, x, dg, hx, -, hdg, hsg, hh₂, hc₂, hi₂, hn₂, hst₂⟩ := update_effect h₂
  obtain ⟨rfl, rfl⟩ : c = some bg ∧ Fields.group { g with students } = x :=
    Obj.mk.inj (Option.some.inj (hg₁.symm.trans hx))
  have hid₁ : ∀ q, ident (w.put this ⟨some bg, .group { g with students }⟩).heap q = ident w.heap q :=
    ident_set hg rfl rfl
  have hid₂ : ∀ q, ident w₂.heap q = ident w.heap q := fun q => by rw [hh₂, ident_set hg₁, hid₁] <;> rfl
  have hg₂ : w₂.heap.get this = some ⟨some (bg.withDoc (("_id", .oid bg.id) :: dg)), .group { g with students }⟩ := by
    rw [hh₂, Lib.Heap.get_set _ hg₁, if_pos rfl]
  have hother₂ : ∀ q, q ≠ this → w₂.heap.get q = w.heap.get q := fun q hq => by
    rw [hh₂, Lib.Heap.get_set _ hg₁, if_neg hq, Lib.Conf.get_put hg, if_neg hq]
  have hs₂ : w₂.heap.get stud = some ⟨some bs, .student s⟩ := by rw [hother₂ _ hne, hs]
  -- the setter: the student takes the pointer, and the group is counted when there is one
  obtain ⟨hid₃, hs₃, ⟨m, hg₃⟩, hother₃, hn₃, henv₃, hc₃, hi₃⟩ : (∀ q, ident w₃.heap q = ident w.heap q) ∧
      w₃.heap.get stud = some ⟨some bs, .student { s with group := .ofOption v }⟩ ∧
      (∃ m, w₃.heap.get this =
        some ⟨some ((bg.withDoc (("_id", .oid bg.id) :: dg)).own m), .group { g with students }⟩) ∧
      (∀ q, q ≠ this → q ≠ stud → w₃.heap.get q = w.heap.get q) ∧ w₃.heap.next = w₂.heap.next ∧ w₃.env = w₂.env ∧
      w₃.cash = w₂.cash ∧ w₃.isChanged = w₂.isChanged := by
    rcases hv with rfl | rfl
    · obtain ⟨o, u, ho, -, rfl⟩ := run_setRef_none_iff.mp h₃
      obtain rfl := Option.some.inj (hs₂.symm.trans ho)
      refine ⟨fun q => (ident_set hs₂ rfl rfl q).trans (hid₂ q), by rw [Lib.Conf.get_put hs₂, if_pos rfl]; rfl,
        ⟨0, by rw [Lib.Conf.get_put hs₂, if_neg hne.symm, hg₂]; simp [IFromDB.own]⟩, fun q hq hq' => ?_, by simp, rfl, rfl, rfl⟩
      rw [Lib.Conf.get_put hs₂, if_neg hq', hother₂ q hq]
    · obtain ⟨o, u, oq, b₁, x₁, ho, -, -, -, hb₁, rfl⟩ := run_setRef_some_iff.mp h₃
      obtain rfl := Option.some.inj (hs₂.symm.trans ho)
      rw [Lib.Conf.get_put hs₂, if_neg hne.symm, hg₂, Option.some.injEq, Obj.mk.injEq, Option.some.injEq] at hb₁
      obtain ⟨rfl, rfl⟩ := hb₁
      have hg' : (w₂.put stud (Obj.setRef ⟨some bs, .student s⟩ .group (.to this))).heap.get this =
          some ⟨some (bg.withDoc (("_id", .oid bg.id) :: dg)), .group { g with students }⟩ := by
        rw [Lib.Conf.get_put hs₂, if_neg hne.symm, hg₂]
      refine ⟨fun q => ?_, ?_, ⟨1, by rw [Lib.Conf.get_put hg', if_pos rfl]⟩, fun q hq hq' => ?_, by simp, rfl, rfl, rfl⟩
      · have hid' : ident (w₂.put stud (Obj.setRef ⟨some bs, .student s⟩ .group (.to this))).heap q = ident w.heap q :=
          (ident_set hs₂ rfl rfl q).trans (hid₂ q)
        rw [Lib.Conf.heap_put, ident_set hg', hid'] <;> rfl
      · rw [Lib.Conf.get_put hg', if_neg hne, Lib.Conf.get_put hs₂, if_pos rfl]
        rfl
      · rw [Lib.Conf.get_put hg', if_neg hq, Lib.Conf.get_put hs₂, if_neg hq', hother₂ q hq]
  obtain ⟨bs', x, ds, hx, -, hds, hss, hh₄, hc₄, hi₄, hn₄, hst₄⟩ := update_effect h₄
  obtain ⟨rfl, rfl⟩ : bs = bs' ∧ Fields.student { s with group := .ofOption v } = x := by
    simpa using Obj.mk.inj (Option.some.inj (hs₃.symm.trans hx))
  obtain ⟨b₅, x₅, hx₅, rfl⟩ := run_own_iff.mp h₅
  have hget₄ : ∀ q, w₄.heap.get q = if q = stud then
      some ⟨some (bs.withDoc (("_id", .oid bs.id) :: ds)), .student { s with group := .ofOption v }⟩
        else w₃.heap.get q := fun q => by rw [hh₄, Lib.Heap.get_set _ hs₃]
  obtain ⟨rfl, rfl⟩ : bs.withDoc (("_id", .oid bs.id) :: ds) = b₅ ∧
      Fields.student { s with group := .ofOption v } = x₅ := by
    rw [hget₄, if_pos rfl] at hx₅
    simpa using Obj.mk.inj (Option.some.inj hx₅)
  have hst₃ : w₃.stored = w₂.stored := by
    funext k o
    simp [Lib.Conf.stored, henv₃]
  have hst : ∀ k o, w₂.stored k o =
      if k = .groups ∧ o = bg.id then some (("_id", .oid bg.id) :: dg) else w.stored k o := hst₂
  refine ⟨bg, rfl, ⟨dg, ds, (toDoc_congr hid₁).mp hdg, (toDoc_congr hid₃).mp hds, fun k o => ?_, ⟨m, ?_⟩, n, ?_⟩,
    hsg, ?_, fun q hq hq' => ?_, ?_, ?_, ?_, ?_⟩
  · rw [Lib.Conf.stored_put, hst₄, hst₃, hst]
    by_cases hk : k = .groups
    · subst hk
      simp
    · simp [hk]
  · rw [Lib.Conf.get_put hx₅, if_neg hne.symm, hget₄, if_neg hne.symm, hg₃]
  · rw [Lib.Conf.get_put hx₅, if_pos rfl]
  · rw [hst₃, hst] at hss
    simpa using hss
  · rw [Lib.Conf.get_put hx₅, if_neg hq', hget₄, if_neg hq', hother₃ q hq hq']
  · rw [Lib.Conf.heap_put, Lib.Heap.next_set, hh₄, Lib.Heap.next_set, hn₃, hh₂, Lib.Heap.next_set, Lib.Conf.heap_put,
      Lib.Heap.next_set]
  · rw [Lib.Conf.cash_put, hc₄, hc₃, hc₂, Lib.Conf.cash_put]
  · rw [Lib.Conf.isChanged_put, hi₄, hi₃, hi₂, Lib.Conf.isChanged_put]
  · rw [Lib.Conf.env_put, hn₄, henv₃, hn₂, Lib.Conf.env_put]

/-- What `addStudent` does. -/
theorem Enrolled.moved {this stud : ℕ} (h : Enrolled w this stud w') : ∃ bg bs g s,
    w.heap.get this = some ⟨some bg, .group g⟩ ∧ w.heap.get stud = some ⟨some bs, .student s⟩ ∧
      Moved w this stud bg bs g s (g.students ++ [stud]) (.to this) w' := by
  obtain ⟨bs, s, c, g, w₂, w₃, w₄, hs, hg, h₂, h₃, h₄, h₅⟩ := h.steps
  obtain ⟨bg, rfl, hm⟩ := moved_of_steps hs hg (.inr rfl) h₂ h₃ h₄ h₅
  exact ⟨bg, bs, g, s, hg, hs, hm⟩

/-- What a `deleteStudent` that finds its student does. -/
theorem Expelled.moved {this stud : ℕ} (h : Expelled w this stud w') : ∃ bg bs g s l₁ p l₂,
    w.heap.get this = some ⟨some bg, .group g⟩ ∧ w.heap.get stud = some ⟨some bs, .student s⟩ ∧
      g.students = l₁ ++ p :: l₂ ∧ (∀ q ∈ l₁, w.idOf q ≠ some bs.id) ∧ w.idOf p = some bs.id ∧
        Moved w this stud bg bs g s (l₁ ++ l₂) .null w' := by
  obtain ⟨bs, s, c, g, l₁, p, l₂, w₂, w₃, w₄, hs, hg, hl, hn, hp, h₂, h₃, h₄, h₅⟩ := h.steps
  obtain ⟨bg, rfl, hm⟩ := moved_of_steps hs hg (.inl rfl) h₂ h₃ h₄ h₅
  exact ⟨bg, bs, g, s, l₁, p, l₂, hg, hs, hl, hn, hp, hm⟩

/-- The steps of an enrolment and of an expulsion return when the two documents are stored and the two objects can be
written. -/
theorem exists_moved_steps {this stud : ℕ} {bg bs : IFromDB} {g : Group} {s : StudentInfo} {students : List ℕ}
    {v : Option ℕ} {dg ds : Doc} (n : ℤ) (hg : w.heap.get this = some ⟨some bg, .group g⟩)
    (hs : w.heap.get stud = some ⟨some bs, .student s⟩) (hv : v = none ∨ v = some this)
    (hdg : (Fields.group { g with students }).toDoc w.heap = .ok dg)
    (hds : (Fields.student { s with group := .ofOption v }).toDoc w.heap = .ok ds)
    (hsg : (w.stored .groups bg.id).isSome) (hss : (w.stored .infos bs.id).isSome) : ∃ w₂ w₃ w₄ w',
      run (Controller.update .groups this) (w.put this ⟨some bg, .group { g with students }⟩) = .ok (true, w₂) ∧
      run (setRef .group stud v) w₂ = .ok ((), w₃) ∧ run (Controller.update .infos stud) w₃ = .ok (true, w₄) ∧
      run (own stud n) w₄ = .ok ((), w') := by
  have hne : stud ≠ this := by
    rintro rfl
    simp [hs] at hg
  set w₁ := w.put this ⟨some bg, .group { g with students }⟩ with hw₁
  have hg₁ : w₁.heap.get this = some ⟨some bg, .group { g with students }⟩ := by
    rw [hw₁, Lib.Conf.get_put hg, if_pos rfl]
  have hid₁ : ∀ q, ident w₁.heap q = ident w.heap q := ident_set hg rfl rfl
  obtain ⟨w₂, h₂, hh₂, -, -, -, hst₂⟩ := run_update_of hg₁ hsg ((toDoc_congr hid₁).mpr hdg)
  have hid₂ : ∀ q, ident w₂.heap q = ident w.heap q := fun q => by rw [hh₂, ident_set hg₁, hid₁] <;> rfl
  have hs₂ : w₂.heap.get stud = some ⟨some bs, .student s⟩ := by
    rw [hh₂, Lib.Heap.get_set _ hg₁, if_neg hne, hw₁, Lib.Conf.get_put hg, if_neg hne, hs]
  obtain ⟨b', hg₂⟩ : ∃ b', w₂.heap.get this = some ⟨some b', .group { g with students }⟩ :=
    ⟨_, by rw [hh₂, Lib.Heap.get_set _ hg₁, if_pos rfl]⟩
  obtain ⟨w₃, h₃, hs₃, hid₃, henv₃⟩ : ∃ w₃, run (setRef .group stud v) w₂ = .ok ((), w₃) ∧
      w₃.heap.get stud = some ⟨some bs, .student { s with group := .ofOption v }⟩ ∧
      (∀ q, ident w₃.heap q = ident w.heap q) ∧ w₃.env = w₂.env := by
    rcases hv with rfl | rfl
    · refine ⟨_, run_setRef_none_iff.mpr ⟨_, _, hs₂, rfl, rfl⟩, by rw [Lib.Conf.get_put hs₂, if_pos rfl]; rfl,
        fun q => (ident_set hs₂ rfl rfl q).trans (hid₂ q), rfl⟩
    · have hg₂' : (w₂.put stud (Obj.setRef ⟨some bs, .student s⟩ .group (.to this))).heap.get this =
          some ⟨some b', .group { g with students }⟩ := by
        rw [Lib.Conf.get_put hs₂, if_neg hne.symm, hg₂]
      refine ⟨_, run_setRef_some_iff.mpr ⟨_, _, _, b', _, hs₂, rfl, hg₂, rfl, hg₂', rfl⟩, ?_, fun q => ?_, rfl⟩
      · rw [Lib.Conf.get_put hg₂', if_neg hne, Lib.Conf.get_put hs₂, if_pos rfl]
        rfl
      · have hid' : ident (w₂.put stud (Obj.setRef ⟨some bs, .student s⟩ .group (.to this))).heap q = ident w.heap q :=
          (ident_set hs₂ rfl rfl q).trans (hid₂ q)
        rw [Lib.Conf.heap_put, ident_set hg₂', hid'] <;> rfl
  have hss₃ : (w₃.stored .infos bs.id).isSome := by
    have : w₃.stored .infos bs.id = w₂.stored .infos bs.id := by simp only [Lib.Conf.stored, henv₃]
    rw [this, hst₂, if_neg (by simp [Fields.kind])]
    exact hss
  obtain ⟨w₄, h₄, hh₄, -⟩ := run_update_of hs₃ hss₃ ((toDoc_congr hid₃).mpr hds)
  have hs₄ := (congrArg (fun h : Memory => h.get stud) hh₄).trans ((Lib.Heap.get_set _ hs₃ stud).trans (if_pos rfl))
  exact ⟨w₂, w₃, w₄, _, h₂, h₃, h₄, run_own_iff.mpr ⟨_, _, hs₄, rfl⟩⟩

/-- `addStudent` returns when the two documents are stored and the two objects can be written. -/
theorem exists_enrolled {this stud : ℕ} {bg bs : IFromDB} {g : Group} {s : StudentInfo} {dg ds : Doc}
    (hg : w.heap.get this = some ⟨some bg, .group g⟩) (hs : w.heap.get stud = some ⟨some bs, .student s⟩)
    (hdg : (Fields.group { g with students := g.students ++ [stud] }).toDoc w.heap = .ok dg)
    (hds : (Fields.student { s with group := .to this }).toDoc w.heap = .ok ds)
    (hsg : (w.stored .groups bg.id).isSome) (hss : (w.stored .infos bs.id).isSome) :
    ∃ w', run (GroupDB.addStudent this (some stud)) w = .ok (true, w') := by
  obtain ⟨w₂, w₃, w₄, w', h₂, h₃, h₄, h₅⟩ := exists_moved_steps 1 hg hs (.inr rfl) hdg hds hsg hss
  exact ⟨w', run_addStudent_iff.mpr ⟨rfl, bs, s, some bg, g, w₂, w₃, w₄, hs, hg, h₂, h₃, h₄, h₅⟩⟩

/-- `deleteStudent` returns when a student with the `_id` is listed, the two documents are stored and the two objects
can be written. -/
theorem exists_expelled {this stud p : ℕ} {bg bs : IFromDB} {g : Group} {s : StudentInfo} {l₁ l₂ : List ℕ} {dg ds : Doc}
    (hg : w.heap.get this = some ⟨some bg, .group g⟩) (hs : w.heap.get stud = some ⟨some bs, .student s⟩)
    (hl : g.students = l₁ ++ p :: l₂) (hn : ∀ q ∈ l₁, w.idOf q ≠ some bs.id) (hp : w.idOf p = some bs.id)
    (hh : w.Held g.students) (hdg : (Fields.group { g with students := l₁ ++ l₂ }).toDoc w.heap = .ok dg)
    (hds : (Fields.student { s with group := .null }).toDoc w.heap = .ok ds)
    (hsg : (w.stored .groups bg.id).isSome) (hss : (w.stored .infos bs.id).isSome) :
    ∃ w', run (GroupDB.deleteStudent this (some stud)) w = .ok (true, w') := by
  obtain ⟨w₂, w₃, w₄, w', h₂, h₃, h₄, h₅⟩ := exists_moved_steps (-1) hg hs (.inl rfl) hdg hds hsg hss
  exact ⟨w', run_deleteStudent_of_expelled hg hh ⟨bs, s, some bg, g, l₁, p, l₂, w₂, w₃, w₄, hs, hg, hl, hn, hp, h₂, h₃,
    h₄, h₅⟩⟩

/-! ### A new info and its owner -/

/-- An info is given to its owner: the owner's document is replaced by the one that names the info, and the info is
cached. -/
structure Given (w : World) (acc res : ℕ) (ba br : IFromDB) (a : Account) (x : Fields) (w' : World) : Prop where
  docs : ∃ da, (Fields.account { a with additionalInfo := .to res }).toDoc w.heap = .ok da ∧
    (∀ k o, w'.stored k o =
      if k = .accounts ∧ o = ba.id then some (("_id", .oid ba.id) :: da) else w.stored k o) ∧
    w'.heap.get acc =
      some ⟨some (ba.withDoc (("_id", .oid ba.id) :: da)), .account { a with additionalInfo := .to res }⟩
  account_stored : (w.stored .accounts ba.id).isSome
  info : ∃ n, w'.heap.get res = some ⟨some (br.own n), x⟩
  other : ∀ q, q ≠ acc → q ≠ res → w'.heap.get q = w.heap.get q
  next : w'.heap.next = w.heap.next
  cash : ∀ k, w'.cash k = if k = .infos then w.cash .infos ++ [res] else w.cash k
  isChanged : w'.isChanged = w.isChanged
  nextOid : w'.env.nextOid = w.env.nextOid

theorem Attached.given {acc res : ℕ} (h : Attached w acc res w') : ∃ ba br a x,
    w.heap.get acc = some ⟨some ba, .account a⟩ ∧ w.heap.get res = some ⟨some br, x⟩ ∧ x.kind = .infos ∧
      Given w acc res ba br a x w' := by
  obtain ⟨w₁, w₂, h₁, h₂, h₃⟩ := h.steps
  obtain ⟨⟨c, y⟩, v, ⟨c', x⟩, b₁, x₁, ho, hv, hr, hadm, hb₁, rfl⟩ := run_setRef_some_iff.mp h₁
  have hx : x.kind = .infos := by simpa [RefField.admits] using hadm
  obtain ⟨a, rfl⟩ : ∃ a, y = .account a := by
    cases y <;> first | exact ⟨_, rfl⟩ | simp [Fields.ref] at hv
  have hne : res ≠ acc := by
    rintro rfl
    obtain ⟨-, rfl⟩ := Obj.mk.inj (Option.some.inj (hr.symm.trans ho))
    cases hx
  rw [Lib.Conf.get_put ho, if_neg hne, hr, Option.some.injEq, Obj.mk.injEq] at hb₁
  obtain ⟨rfl, rfl⟩ := hb₁
  have hr₁ : (w.put acc (Obj.setRef ⟨c, .account a⟩ .additionalInfo (.to res))).heap.get res = some ⟨some b₁, x⟩ := by
    rw [Lib.Conf.get_put ho, if_neg hne, hr]
  set w₁ := (w.put acc (Obj.setRef ⟨c, .account a⟩ .additionalInfo (.to res))).put res ⟨some (b₁.own 1), x⟩ with hw₁
  have ha₁ : w₁.heap.get acc = some ⟨c, .account { a with additionalInfo := .to res }⟩ := by
    rw [hw₁, Lib.Conf.get_put hr₁, if_neg hne.symm, Lib.Conf.get_put ho, if_pos rfl]
    rfl
  obtain ⟨ba, y, da, hy, -, hda, hsa, hh₂, hc₂, hi₂, hn₂, hst₂⟩ := update_effect h₂
  obtain ⟨rfl, rfl⟩ : c = some ba ∧ Fields.account { a with additionalInfo := .to res } = y :=
    Obj.mk.inj (Option.some.inj (ha₁.symm.trans hy))
  have hid₁ : ∀ q, ident w₁.heap q = ident w.heap q := by
    intro q
    have hid' : ident (w.put acc (Obj.setRef ⟨some ba, .account a⟩ .additionalInfo (.to res))).heap q = ident w.heap q :=
      ident_set ho rfl rfl q
    rw [hw₁, Lib.Conf.heap_put, ident_set hr₁, hid'] <;> rfl
  obtain ⟨br, y, hres, rfl⟩ := run_own_iff.mp h₃
  rw [Lib.Conf.heap_setCash] at hres
  have hget₂ : ∀ q, w₂.heap.get q = if q = acc then
      some ⟨some (ba.withDoc (("_id", .oid ba.id) :: da)), .account { a with additionalInfo := .to res }⟩
        else w₁.heap.get q := fun q => by rw [hh₂, Lib.Heap.get_set _ ha₁]
  rw [hget₂, if_neg hne, hw₁, Lib.Conf.get_put hr₁, if_pos rfl, Option.some.injEq, Obj.mk.injEq, Option.some.injEq] at hres
  obtain ⟨rfl, rfl⟩ := hres
  have hget : ∀ q, ((w₂.setCash .infos (w₂.cash .infos ++ [res])).put res ⟨some ((b₁.own 1).own 1), x⟩).heap.get q =
      if q = res then some ⟨some ((b₁.own 1).own 1), x⟩ else w₂.heap.get q := by
    have : (w₂.setCash .infos (w₂.cash .infos ++ [res])).heap.get res = some ⟨some (b₁.own 1), x⟩ := by
      rw [Lib.Conf.heap_setCash, hget₂, if_neg hne, hw₁, Lib.Conf.get_put hr₁, if_pos rfl]
    exact Lib.Conf.get_put this
  have hst₁ : w₁.stored = w.stored := rfl
  refine ⟨ba, b₁, a, x, ho, hr, hx, ⟨da, (toDoc_congr hid₁).mp hda, fun k o => ?_, ?_⟩, hst₁ ▸ hsa, ⟨1 + 1, ?_⟩,
    fun q hq hq' => ?_, ?_, fun k => ?_, ?_, ?_⟩
  · rw [Lib.Conf.stored_put, Lib.Conf.stored_setCash, hst₂, hst₁]
  · rw [hget, if_neg hne.symm, hget₂, if_pos rfl]
  · rw [hget, if_pos rfl]
    simp [IFromDB.own]
    ring
  · rw [hget, if_neg hq', hget₂, if_neg hq, hw₁, Lib.Conf.get_put hr₁, if_neg hq', Lib.Conf.get_put ho, if_neg hq]
  · simp [hh₂, hw₁]
  · rw [Lib.Conf.cash_put, Lib.Conf.cash_setCash, hc₂]
    rfl
  · rw [Lib.Conf.isChanged_put, Lib.Conf.isChanged_setCash, hi₂]
    rfl
  · rw [Lib.Conf.env_put, Lib.Conf.env_setCash, hn₂]
    rfl

/-- The owner takes the info when its document is stored and can be written. -/
theorem exists_attached {acc res : ℕ} {ba br : IFromDB} {a : Account} {x : Fields} {da : Doc}
    (ha : w.heap.get acc = some ⟨some ba, .account a⟩) (hr : w.heap.get res = some ⟨some br, x⟩)
    (hx : x.kind = .infos) (hda : (Fields.account { a with additionalInfo := .to res }).toDoc w.heap = .ok da)
    (hs : (w.stored .accounts ba.id).isSome) : ∃ w', Attached w acc res w' := by
  have hne : res ≠ acc := by
    rintro rfl
    obtain ⟨-, rfl⟩ := Obj.mk.inj (Option.some.inj (hr.symm.trans ha))
    cases hx
  set w₁ := (w.put acc ⟨some ba, .account { a with additionalInfo := .to res }⟩).put res ⟨some (br.own 1), x⟩ with hw₁
  have hr₀ : (w.put acc ⟨some ba, .account { a with additionalInfo := .to res }⟩).heap.get res = some ⟨some br, x⟩ := by
    rw [Lib.Conf.get_put ha, if_neg hne, hr]
  have h₁ : run (setRef .additionalInfo acc (some res)) w = .ok ((), w₁) := by
    simp only [setRef, run_bind_iff, run_obj_iff]
    refine ⟨_, w, ⟨ha, rfl⟩, ?_⟩
    simp only [Fields.ref, Option.isNone_some, Bool.false_eq_true, if_false, run_bind_iff, run_obj_iff]
    refine ⟨_, w, ⟨hr, rfl⟩, ?_⟩
    simp only [RefField.admits, hx, decide_true, Bool.true_eq_false, if_false, run_bind_iff, run_assign_iff, run_own_iff]
    exact ⟨⟨⟩, _, ⟨_, ha, rfl⟩, br, _, hr₀, rfl⟩
  have ha₁ : w₁.heap.get acc = some ⟨some ba, .account { a with additionalInfo := .to res }⟩ := by
    rw [hw₁, Lib.Conf.get_put hr₀, if_neg hne.symm, Lib.Conf.get_put ha, if_pos rfl]
  have hid₁ : ∀ q, ident w₁.heap q = ident w.heap q := fun q => by
    rw [hw₁, Lib.Conf.heap_put, ident_set hr₀, Lib.Conf.heap_put, ident_set ha] <;> rfl
  obtain ⟨w₂, h₂, hh₂, -⟩ := run_update_of ha₁ hs ((toDoc_congr hid₁).mpr hda)
  have hr₂ : w₂.heap.get res = some ⟨some (br.own 1), x⟩ := by
    rw [hh₂, Lib.Heap.get_set _ ha₁, if_neg hne, hw₁, Lib.Conf.get_put hr₀, if_pos rfl]
  exact ⟨_, w₁, w₂, h₁, h₂, run_own_iff.mpr ⟨_, x, by rw [Lib.Conf.heap_setCash, hr₂], rfl⟩⟩

end Cbt
