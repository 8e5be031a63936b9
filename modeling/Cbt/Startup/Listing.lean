import Cbt.Schedules.Lessons
import Cbt.Sharing.Clients
import Cbt.Startup.Reader

/-! What the tables ask of a process that has only read. A listing answers with an object
for each document. A table of accounts can be filled exactly when every account it lists
can be listed: a student's and a teacher's needs its info, of its own class. -/

namespace Cbt

open Lib.Command (Returns run_bind_iff run_pure_iff)

variable {κ : Names} {db : Database} {w w' : World} {k : Kind} {c : DBClass} {d : Doc} {p : ℕ}

/-! ### What can be read -/

/-- A document of a collection of one class can be read as an object of it. -/
theorem Named.fields {i : Oid} (h : Named κ db) (hk : k ≠ .infos) (hd : db.get? k i = some d) :
    ∃ x, k.dbClass.fields d = .ok x := by
  obtain ⟨c, d', rfl, -, ⟨y, ref, m, rfl, rfl, -⟩, rfl⟩ := h.record k i d hd
  refine ⟨y.bare, ?_⟩
  rw [← fields_written y ref m i]
  cases y <;> first | rfl | exact absurd rfl hk

/-- What can be read as an object of a class has the references of the class. -/
theorem Named.isOf {i : Oid} {c : DBClass} {x : Fields} (h : Named κ db) (hd : db.get? c.kind i = some d)
    (hc : c ≠ .additionalInfoDB) (hx : c.fields d = .ok x) : d.IsOf c := by
  have hi := h.cls hd hc hx
  obtain ⟨c', d', hk, ha, ⟨y, ref, m, rfl, rfl, -⟩, rfl⟩ := h.record _ i d hd
  by_cases hy : y.cls = .additionalInfoDB
  · rw [hy] at hk
    rcases DBClass.kind_ne hc hk.symm with rfl | rfl
    · exact absurd (by cases y <;> first | rfl | cases hy) (curs_of_student hx)
    · exact absurd (by cases y <;> first | rfl | cases hy) (faculty_of_teacher hx)
  · obtain ha | ⟨ha, -⟩ := ha
    · obtain rfl := Option.some.inj (ha.symm.trans hi)
      exact isOf_written y ref m i
    · exact absurd ha hy

theorem DBClass.eq_of_kind (hk : k ≠ .infos) (hc : c.kind = k) : c = k.dbClass := by
  subst hc
  cases c <;> first | rfl | exact absurd rfl hk

namespace Reader

/-! ### Listings -/

theorem exists_ofDoc (h : Reader db w) (hn : Named κ db) (hk : k ≠ .infos) (hd : d ∈ (w.env.coll k).docs) :
    ∃ o, k.dbClass.ofDoc d = .ok o := by
  obtain ⟨i, hi⟩ := Collection.mem_docs.mp hd
  obtain ⟨x, hx⟩ := hn.fields hk (h.env ▸ hi)
  exact ⟨_, ofDoc_eq_ok.mpr ⟨x, i, hx, stored_id hi, rfl⟩⟩

theorem collected (h : Reader db w) (hk : k ≠ .infos) {counted : Bool} {docs : List Doc} {r : List ℕ} (hd : Listed w k docs)
    (hr : run (Controller.collect k (fun _ => .ok true) counted docs) w = .ok (r, w')) :
    Reader db w' ∧ (∀ p ∈ r, ∃ d ∈ docs, w'.Holds p k.dbClass d) ∧ ∀ d ∈ docs, ∃ p ∈ r, w'.Holds p k.dbClass d := by
  induction docs generalizing w r with
  | nil =>
    obtain ⟨rfl, rfl⟩ := (run_pure_iff _).mp hr
    exact ⟨h, by simp, by simp⟩
  | cons d docs ih =>
    have hcons {p : ℕ} {r' : List ℕ} (hp : w'.Holds p k.dbClass d) (hl : ∀ p ∈ r', ∃ d ∈ docs, w'.Holds p k.dbClass d)
        (hr : ∀ d ∈ docs, ∃ p ∈ r', w'.Holds p k.dbClass d) : (∀ q ∈ p :: r', ∃ e ∈ d :: docs, w'.Holds q k.dbClass e) ∧
          ∀ e ∈ d :: docs, ∃ q ∈ p :: r', w'.Holds q k.dbClass e := by
      constructor
      · rw [List.forall_mem_cons]
        exact ⟨⟨d, by simp, hp⟩, fun q hq => (hl q hq).imp fun e he => ⟨List.mem_cons_of_mem _ he.1, he.2⟩⟩
      · rw [List.forall_mem_cons]
        exact ⟨⟨p, by simp, hp⟩, fun e he => (hr e he).imp fun q hq => ⟨List.mem_cons_of_mem _ hq.1, hq.2⟩⟩
    have hlooks {w₁ : World} {r' : List ℕ} (h₁ : Reader db w₁) (hs : w₁.stored = w.stored)
        (hr' : run (Controller.collect k (fun _ => .ok true) counted docs) w₁ = .ok (r', w')) : Looks w₁ w' :=
      .of_quiet (L := anything) (quiet_collect (fun _ => trivial) h₁.sound (hd.tail.of_stored hs) hr')
    rcases (run_collect_cons_iff (h.sound.live k)).mp hr with
      ⟨hf, -⟩ | ⟨oid, r', -, hi, ⟨p, hc, rfl, hr'⟩ | ⟨o, hn, ho, rfl, hr'⟩⟩
    · cases hf
    · obtain ⟨h', hl, hall⟩ := ih h hd.tail hr'
      obtain ⟨i, c, d', hid, hck, hst, hp⟩ := h.holds_cached (Lib.Conf.cached_mem hc)
      obtain rfl := Option.some.inj (hid.symm.trans (Lib.Conf.cached_idOf hc))
      have hs := hd d (by simp) i hi
      rw [h.stored] at hs
      obtain rfl := Option.some.inj (hst.symm.trans hs)
      exact ⟨h', hcons ((DBClass.eq_of_kind hk hck ▸ hp).mono (hlooks h rfl hr')) hl hall⟩
    · have hs := hd d (by simp) oid hi
      obtain ⟨x, hx, rfl⟩ := ofDoc_stored hs ho
      have hxk : x.kind = k := Fields.kind_of_dbClass hx
      have hne : x.cls ≠ .additionalInfoDB := by
        rw [hx]
        cases k <;> simp [Kind.dbClass] at hk ⊢
      have hf : x.cls.fields d = .ok x := fields_of_ofDoc (b := { doc := d, id := oid }) (hx ▸ ho)
      rw [h.stored] at hs
      have hload : Reader db (w.load k (Obj.listed counted ⟨some { doc := d, id := oid }, x⟩)) ∧
          (w.load k (Obj.listed counted ⟨some { doc := d, id := oid }, x⟩)).Holds w.heap.next k.dbClass d := by
        cases counted with
        | false => exact ⟨hxk ▸ h.load (b := { doc := d, id := oid }) (hxk ▸ hs) rfl hne hf,
            _, x, Lib.Heap.get_push_next _ _, rfl, hx, rfl⟩
        | true => exact ⟨hxk ▸ h.load (b := IFromDB.own 1 { doc := d, id := oid }) (hxk ▸ hs) rfl hne hf,
            _, x, Lib.Heap.get_push_next _ _, rfl, hx, rfl⟩
      obtain ⟨h₁, hp⟩ := hload
      obtain ⟨h', hl, hall⟩ := ih h₁ (hd.tail.of_stored rfl) hr'
      exact ⟨h', hcons (hp.mono (hlooks h₁ rfl hr')) hl hall⟩

/-- A listing of a collection other than that of the infos lists objects of stored documents, and when it asks the
database, of all of them. -/
theorem listed (h : Reader db w) (hk : k ≠ .infos) {r : List ℕ} (hr : run (Controller.getAll k) w = .ok (r, w')) :
    Reader db w' ∧ (∀ p ∈ r, ∃ i d, db.get? k i = some d ∧ w'.Holds p k.dbClass d) ∧
      (w.isChanged k = true → ∀ i d, db.get? k i = some d → ∃ p ∈ r, w'.Holds p k.dbClass d) := by
  rcases run_getAll_iff.mp hr with ⟨hc, rfl, rfl⟩ | ⟨-, w₁, hr₁, rfl⟩
  · refine ⟨h, fun p hp => ?_, fun hc' => absurd (hc.symm.trans hc') Bool.false_ne_true⟩
    obtain ⟨i, c, d, -, hck, hst, hp⟩ := h.holds_cached hp
    exact ⟨i, d, hst, DBClass.eq_of_kind hk hck ▸ hp⟩
  · rw [admits_eq hk] at hr₁
    obtain ⟨h₁, hl, hall⟩ := h.collected hk (listed_docs w k) hr₁
    refine ⟨h₁.setChanged false, fun p hp => ?_, fun _ i d hd => ?_⟩
    · obtain ⟨d, hd, hp'⟩ := hl p hp
      obtain ⟨i, hi⟩ := Collection.mem_docs.mp hd
      exact ⟨i, d, h.env ▸ hi, hp'⟩
    · rw [← h.env] at hd
      exact hall d (mem_docs_of_stored hd)

theorem replies_getAll (h : Reader db w) (hn : Named κ db) (hk : k ≠ .infos) :
    Replies db (Controller.getAll k) w fun r w' => ∀ p ∈ r, ∃ i d, db.get? k i = some d ∧ w'.Holds p k.dbClass d := by
  obtain ⟨r, w', hr⟩ : ∃ r w', run (Controller.getAll k) w = .ok (r, w') := by
    cases hc : w.isChanged k with
    | false => exact ⟨_, _, run_getAll_iff.mpr (.inl ⟨hc, rfl, rfl⟩)⟩
    | true =>
      obtain ⟨r, w₁, hr⟩ := exists_collect false h.sound (listed_docs w k) fun d hd => h.exists_ofDoc hn hk hd
      refine ⟨r, _, run_getAll_iff.mpr (.inr ⟨hc, w₁, ?_, rfl⟩)⟩
      rwa [admits_eq hk]
  exact .of_run hr ⟨(h.listed hk hr).1, (views_getAll k).looks h.sound hr, (h.listed hk hr).2.1⟩

theorem replies_getAllTeachers (h : Reader db w) (hn : Named κ db) :
    Replies db AccountsController.getAllTeachers w fun r w' =>
      ∀ p ∈ r, ∃ i d, db.get? .accounts i = some d ∧ w'.Holds p .accountDB d := by
  have hlisted := listed_filter w .accounts (Doc.fits [("AccountType", .int32 1)])
  obtain ⟨r, w', hr⟩ := exists_collect true h.sound hlisted fun d hd => h.exists_ofDoc hn (by decide) (List.mem_filter.mp hd).1
  have hrun : run AccountsController.getAllTeachers w = .ok (r, w') :=
    (run_bind_iff _).mpr ⟨_, w, run_find_iff.mpr ⟨rfl, rfl⟩, hr⟩
  obtain ⟨h', hall, -⟩ := h.collected (by decide) hlisted hr
  refine .of_run hrun ⟨h', views_getAllTeachers.looks h.sound hrun, fun p hp => ?_⟩
  obtain ⟨d, hd, hp'⟩ := hall p hp
  obtain ⟨i, hi⟩ := Collection.mem_docs.mp (List.mem_filter.mp hd).1
  exact ⟨i, d, h.env ▸ hi, hp'⟩

end Reader

end Cbt
