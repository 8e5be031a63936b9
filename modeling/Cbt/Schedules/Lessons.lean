import Cbt.Caches.Listing
import Cbt.Schedules.Mirror

/-! Adding a class to the timetable and asking for those of a day. A schedule that
was given a group and a teacher that exist is stored as a class; a query answers
with one object for each stored class of the day and the group. -/

namespace Cbt

open Lib.Command (run_bind_iff run_pure_iff run_ofExcept_iff)

variable {w w' : World}

/-! ### Adding -/

/-- `Add` of a new schedule that was given a group and a teacher. -/
def storeSchedule (date : QDate) (name : String) (para : Para) (group teacher : Option ℕ) : Cmd (Option ℕ) := do
  let write ← newObj ⟨none, .schedule { date, name, paraNumber := para }⟩
  Schedule.setGroup write group
  Schedule.setTeacher write teacher
  Controller.add .schedules write

/-- A class was stored under the next id, and its object cached. -/
structure LessonAdded (w : World) (l : Lesson) (p : ℕ) (w' : World) : Prop where
  doc : ∃ d b, d.IsLesson l ∧ (∀ k o, w'.stored k o = if k = .schedules ∧ o = w.env.nextOid then some d else w.stored k o) ∧
    w'.heap.get p = some ⟨some b, .schedule l.schedule⟩ ∧ b.core = (w.env.nextOid, d, true)
  cash : w'.cash .schedules = w.cash .schedules ++ [p]
  kept : KindKept .schedules w w'

/-- A plain object takes a reference. -/
theorem get_setRef {f : RefField} {this q : ℕ} {x : Fields} {u : Unit} (hx : w.heap.get this = some ⟨none, x⟩)
    (h : run (setRef f this (some q)) w = .ok (u, w')) :
    w'.heap.get this = some ⟨none, x.setRef f (.to q)⟩ ∧ ∃ y, (w.heap.get q).map (·.fields) = some y ∧ f.admits y := by
  obtain ⟨o, v, oq, b, y, ho, -, hq, ha, hb, rfl⟩ := run_setRef_some_iff.mp h
  obtain rfl := Option.some.inj (hx.symm.trans ho)
  have hne : this ≠ q := by
    rintro rfl
    rw [Lib.Conf.get_put hx, if_pos rfl] at hb
    simp [Obj.setRef] at hb
  refine ⟨?_, oq.fields, by simp [hq], ha⟩
  rw [Lib.Conf.get_put hb, if_neg hne, Lib.Conf.get_put hx, if_pos rfl]
  rfl

theorem exists_setRef {f : RefField} {this q : ℕ} {b : IFromDB} {x y : Fields} {v : Pointer}
    (hx : w.heap.get this = some ⟨none, x⟩) (hv : x.ref f = some v) (hq : w.heap.get q = some ⟨some b, y⟩)
    (ha : f.admits y = true) : ∃ w', run (setRef f this (some q)) w = .ok ((), w') := by
  have hne : q ≠ this := by
    rintro rfl
    simp [hx] at hq
  have hq' : (w.put this ((⟨none, x⟩ : Obj).setRef f (.to q))).heap.get q = some ⟨some b, y⟩ := by
    rw [Lib.Conf.get_put hx, if_neg hne, hq]
  exact ⟨_, run_setRef_some_iff.mpr ⟨_, v, _, b, y, hx, hv, hq, ha, hq', rfl⟩⟩

/-- The document of a new schedule is a class of its group. -/
theorem isLesson_written {date : QDate} {name : String} {para : Para} {t g : ℕ} {i o : Oid} {ref : RefField → Bson}
    {m : Bson} (hw : (Fields.schedule { date, name, paraNumber := para, teacher := .to t, group := .to g }).Writes w.heap ref m)
    (hg : w.Is g i .groupDB) : (Collection.withId o
      ((Fields.schedule { date, name, paraNumber := para, teacher := .to t, group := .to g }).written ref m)).IsLesson
        ⟨date, name, para, i⟩ := by
  have hr : ref .group = .oid i := by
    have h := hw.ref .group _ rfl
    rw [value_of_is hg] at h
    exact (Except.ok.inj h).symm
  constructor <;> simp [Collection.withId, Fields.written, hr]

/-- `Add` of the object. -/
theorem lessonAdded_of_add {date : QDate} {name : String} {para : Para} {e g t : ℕ} {i : Oid} {r : Option ℕ}
    (he : w.heap.get e = some ⟨none, .schedule { date, name, paraNumber := para, teacher := .to t, group := .to g }⟩)
    (hg : w.Is g i .groupDB) (h : run (Controller.add .schedules e) w = .ok (r, w')) :
    ∃ p, r = some p ∧ LessonAdded w ⟨date, name, para, i⟩ p w' := by
  obtain ⟨x, d, o, hx, -, hd, -, ho, rfl, rfl⟩ := run_add_iff.mp h
  obtain ⟨-, rfl⟩ := Obj.mk.inj (Option.some.inj (he.symm.trans hx))
  obtain ⟨ref, m, hwr, hwd⟩ := toDoc_eq_ok.mp hd
  have hl := isLesson_written (o := w.env.nextOid) hwr hg
  have hof := ofDoc_written (.schedule { date, name, paraNumber := para, teacher := .to t, group := .to g }) ref m w.env.nextOid
  rw [← hwd] at hl hof
  obtain rfl := Except.ok.inj (hof.symm.trans ho)
  refine ⟨_, rfl, ⟨_, IFromDB.own 1 { doc := Collection.withId w.env.nextOid d, id := w.env.nextOid }, hl, fun k j => stored_post (e := e) k j, ?_, ?_⟩, ?_, fun p b y hp _ _ => ?_⟩
  · have hn : w.heap.next = (w.heap.free e).next := by simp
    rw [hn]
    exact Lib.Heap.get_push_next _ _
  · exact IFromDB.core_own _ 1
  · rw [Lib.Conf.cash_load, if_pos rfl, cash_post]
    simp
  · have hne : p ≠ e := by
      rintro rfl
      simp [he] at hp
    exact ⟨b, y, Lib.Heap.get_push_of_some _ (by rw [heap_post, Lib.Heap.get_free, if_neg hne, hp]), rfl, rfl⟩

/-- What happened quietly before may be counted in. -/
theorem LessonAdded.of_quiet {w₁ : World} {l : Lesson} {p : ℕ} (h : LessonAdded w₁ l p w') (hq : Quiet never w w₁) :
    LessonAdded w l p w' := by
  obtain ⟨⟨d, b, hl, hs, hp, hb⟩, hc, hk⟩ := h
  refine ⟨⟨d, b, hl, fun k o => ?_, hp, ?_⟩, ?_, fun q b y hq' hb' hy => ?_⟩
  · rw [hs, hq.stored, hq.env]
  · rw [hb, hq.env]
  · rw [hc, hq.steady.cash]
  · obtain ⟨b₁, y₁, h₁, hc₁, hy₁⟩ := hq.kept hq' hb'
    simp only [IFromDB.core, Prod.mk.injEq] at hc₁
    obtain ⟨b₂, y₂, h₂, hc₂, hy₂⟩ := hk q b₁ y₁ h₁ (hc₁.2.2.trans hb') ((Fields.kind_of_bare hy₁).trans hy)
    refine ⟨b₂, y₂, h₂, hc₂.trans ?_, hy₂.trans hy₁⟩
    simp only [IFromDB.core, hc₁.1, hc₁.2.1, hc₁.2.2]

theorem lessonAdded {date : QDate} {name : String} {para : Para} {g t : ℕ} {i : Oid} {r : Option ℕ} (hw : Sound w)
    (hg : w.Is g i .groupDB) (h : run (storeSchedule date name para (some g) (some t)) w = .ok (r, w')) :
    ∃ p, r = some p ∧ LessonAdded w ⟨date, name, para, i⟩ p w' := by
  simp only [storeSchedule, run_bind_iff, run_newObj_iff] at h
  obtain ⟨_, _, ⟨rfl, rfl⟩, _, w₂, h₂, _, w₃, h₃, h⟩ := h
  have q₁ : Quiet never w (w.push ⟨none, .schedule { date, name, paraNumber := para }⟩) := .single (.push rfl)
  have q₂ : Quiet never w w₂ := q₁.trans (quiet_setRef (q₁.sound hw) h₂)
  have q₃ : Quiet never w w₃ := q₂.trans (quiet_setRef (q₂.sound hw) h₃)
  have hp₁ : (w.push ⟨none, .schedule { date, name, paraNumber := para }⟩).heap.get w.heap.next =
      some ⟨none, .schedule { date, name, paraNumber := para }⟩ := Lib.Heap.get_push_next _ _
  have hp₃ := (get_setRef (get_setRef hp₁ h₂).1 h₃).1
  obtain ⟨p, rfl, ha⟩ := lessonAdded_of_add hp₃ (q₃.is hg) h
  exact ⟨p, rfl, ha.of_quiet q₃⟩

theorem sound_add {k : Kind} {e : ℕ} {r : Option ℕ} (hw : Sound w) (h : run (Controller.add k e) w = .ok (r, w')) :
    Sound w' := by
  obtain ⟨x, d, o, he, -, -, -, ho, -, rfl⟩ := run_add_iff.mp h
  obtain ⟨y, i, hy, -, rfl⟩ := ofDoc_eq_ok.mp ho
  exact (hw.post he _).load rfl (Fields.kind_of_dbClass (DBClass.cls_fields hy))

theorem sound_storeSchedule {date : QDate} {name : String} {para : Para} {group teacher r : Option ℕ} (hw : Sound w)
    (h : run (storeSchedule date name para group teacher) w = .ok (r, w')) : Sound w' := by
  simp only [storeSchedule, run_bind_iff, run_newObj_iff] at h
  obtain ⟨_, _, ⟨rfl, rfl⟩, _, w₂, h₂, _, w₃, h₃, h⟩ := h
  have hw₂ := (quiet_setRef (sound_push hw _) h₂).sound (sound_push hw _)
  exact sound_add ((quiet_setRef hw₂ h₃).sound hw₂) h

/-- `Add` of an object that can be written. -/
theorem exists_add {k : Kind} {e : ℕ} {x : Fields} {ref : RefField → Bson} {m : Bson}
    (he : w.heap.get e = some ⟨none, x⟩) (hx : x.cls = k.dbClass) (hw : x.Writes w.heap ref m) :
    ∃ w', run (Controller.add k e) w = .ok (some w.heap.next, w') := by
  have hid : (x.written ref m).get? "_id" = none := by cases x <;> simp [Fields.written]
  have ho : k.dbClass.ofDoc (Collection.withId w.env.nextOid (x.written ref m)) = .ok _ := hx ▸ ofDoc_written x ref m _
  exact ⟨_, run_add_iff.mpr ⟨x, _, _, he, Fields.kind_of_dbClass hx, toDoc_eq_ok.mpr ⟨ref, m, hw, rfl⟩, hid, ho, rfl, rfl⟩⟩

/-- With a group and a teacher that exist, a new schedule is stored. -/
theorem exists_storeSchedule {g t : ℕ} {i j : Oid} (hw : Sound w) (hg : w.Is g i .groupDB) (ht : w.Is t j .teacherInfoDB)
    (date : QDate) (name : String) (para : Para) :
    ∃ r w', run (storeSchedule date name para (some g) (some t)) w = .ok (r, w') := by
  have admits : ∀ {w₁ : World} {f : RefField} {q : ℕ} {o : Oid} {c : DBClass} {x : Fields} {v : Pointer} {p : ℕ},
      w₁.Is q o c → (f, c) = (.group, .groupDB) ∨ (f, c) = (.teacher, .teacherInfoDB) →
        w₁.heap.get p = some ⟨none, x⟩ → x.ref f = some v → ∃ w', run (setRef f p (some q)) w₁ = .ok ((), w') := by
    rintro w₁ f q o c x v p ⟨b, y, hq, -, -, rfl⟩ hf hp hv
    refine exists_setRef hp hv hq ?_
    cases y <;> simp [Fields.cls] at hf <;> subst hf <;> rfl
  have q₁ : Quiet never w (w.push ⟨none, .schedule { date, name, paraNumber := para }⟩) := .single (.push rfl)
  have hp₁ : (w.push ⟨none, .schedule { date, name, paraNumber := para }⟩).heap.get w.heap.next =
      some ⟨none, .schedule { date, name, paraNumber := para }⟩ := Lib.Heap.get_push_next _ _
  obtain ⟨w₂, h₂⟩ := admits (q₁.is hg) (.inl rfl) hp₁ rfl
  have q₂ : Quiet never w w₂ := q₁.trans (quiet_setRef (q₁.sound hw) h₂)
  have hp₂ := (get_setRef hp₁ h₂).1
  obtain ⟨w₃, h₃⟩ := admits (q₂.is ht) (.inr rfl) hp₂ rfl
  have q₃ : Quiet never w w₃ := q₂.trans (quiet_setRef (q₂.sound hw) h₃)
  have hp₃ := (get_setRef hp₂ h₃).1
  have hwr : ∃ ref m, (Fields.schedule { date, name, paraNumber := para, teacher := .to t, group := .to g }).Writes
      w₃.heap ref m := by
    refine exists_writes (fun f v hv => ?_) (fun g h => by cases h)
    cases f <;> simp only [Fields.ref, Option.some.injEq, reduceCtorEq] at hv <;> subst hv
    · exact ⟨_, value_of_is (q₃.is hg)⟩
    · exact ⟨_, value_of_is (q₃.is ht)⟩
  obtain ⟨ref, m, hwr⟩ := hwr
  obtain ⟨w', h'⟩ := exists_add (k := .schedules) hp₃ rfl hwr
  refine ⟨some w₃.heap.next, w', ?_⟩
  simp only [storeSchedule, run_bind_iff, run_newObj_iff]
  exact ⟨_, _, ⟨rfl, rfl⟩, (), w₂, h₂, (), w₃, h₃, h'⟩

/-- The new object agrees with the new document, and both are the schedule's only ones. -/
theorem LessonAdded.mirrored {l : Lesson} {p : ℕ} (h : LessonAdded w l p w') (hm : Mirrored w) : Mirrored w' := by
  obtain ⟨⟨d, b, hl, hs, hp, hb⟩, hc, hk⟩ := h
  simp only [IFromDB.core, Prod.mk.injEq] at hb
  have hnew : w.stored .schedules w.env.nextOid = none := w.env.get?_nextOid .schedules
  have hold : ∀ o d', w.stored .schedules o = some d' → w'.stored .schedules o = some d' := by
    intro o d' hd
    rw [hs, if_neg, hd]
    rintro ⟨-, rfl⟩
    simp [hnew] at hd
  have hpo : w'.idOf p = some w.env.nextOid := by rw [Lib.Conf.idOf_of_get hp, hb.1]
  refine ⟨?_, fun o d' hd => ?_, fun q hq => ?_⟩
  · rw [hc, List.map_append, List.map_congr_left fun q hq => hm.idOf_eq hk hq, List.map_singleton, hpo, List.nodup_append]
    refine ⟨hm.ids, by simp, ?_⟩
    rintro i hi j hj rfl
    obtain rfl := List.mem_singleton.mp hj
    obtain ⟨q, hq, hqi⟩ := List.mem_map.mp hi
    obtain ⟨b', x', hg, -, hst, -⟩ := hm.entry q hq
    have hb' : b'.id = w.env.nextOid := Option.some.inj ((Lib.Conf.idOf_of_get hg).symm.trans hqi)
    simp [hb', hnew] at hst
  · rw [hs] at hd
    split_ifs at hd with ho
    · obtain rfl := Option.some.inj hd
      exact ⟨l, hl⟩
    · exact hm.lessons o d' hd
  · rw [hc] at hq
    rcases List.mem_append.mp hq with hq | hq
    · exact hm.entry_kept hk hq fun o d' hd _ => hold o d' hd
    · obtain rfl := List.mem_singleton.mp hq
      refine ⟨b, _, hp, hb.2.2, ?_, fun l' hl' => ?_⟩
      · rw [hs, if_pos ⟨rfl, hb.1⟩, hb.2.1]
      · rw [hb.2.1] at hl'
        rw [hl.unique hl']
        rfl

theorem LessonAdded.held {l : Lesson} {p : ℕ} (h : LessonAdded w l p w') (hm : Mirrored w) (hh : Held w) : Held w' := by
  obtain ⟨⟨d, b, hl, hs, hp, hb⟩, hc, hk⟩ := h
  simp only [IFromDB.core, Prod.mk.injEq] at hb
  intro o d' hd
  rw [hs] at hd
  split_ifs at hd with ho
  · exact ⟨p, by simp [hc], by rw [Lib.Conf.idOf_of_get hp, hb.1, ho.2]⟩
  · obtain ⟨q, hq, hqo⟩ := hh o d' hd
    exact ⟨q, by simp [hc, hq], (hm.idOf_eq hk hq).trans hqo⟩

/-! ### Asking -/

/-- A listing that admits every document yields its objects in order. -/
theorem idOf_of_collect {k : Kind} {counted : Bool} {docs : List Doc} {r : List ℕ} (hw : Sound w) (hd : Listed w k docs)
    (h : run (Controller.collect k (fun _ => .ok true) counted docs) w = .ok (r, w')) :
    r.map w'.idOf = docs.map Doc.id? := by
  induction docs generalizing w r with
  | nil =>
    obtain ⟨rfl, -⟩ := (run_pure_iff _).mp h
    rfl
  | cons d docs ih =>
    rcases (run_collect_cons_iff (hw.live k)).mp h with
      ⟨ha, -⟩ | ⟨oid, r', -, hi, ⟨p, hc, rfl, h'⟩ | ⟨o, hn, ho, rfl, h'⟩⟩
    · cases ha
    · have hq : Quiet anything w w' := quiet_collect (fun _ => trivial) hw hd.tail h'
      have hp : w'.idOf p = some oid := by
        rw [idOf_of_is (fun o c => hq.is) (hw.live k p (Lib.Conf.cached_mem hc)), Lib.Conf.cached_idOf hc]
      rw [List.map_cons, List.map_cons, ih hw hd.tail h', hp]
      simp [Doc.id?, hi]
    · have hs := hd d (by simp) oid hi
      have q₁ : Quiet anything w (w.load k (o.listed counted)) := quiet_listed (fun _ => trivial) hs hn ho
      have hw₁ := q₁.sound hw
      have hd₁ := hd.tail.of_stored q₁.stored
      have hq : Quiet anything _ w' := quiet_collect (fun _ => trivial) hw₁ hd₁ h'
      have hnew : (w.load k (o.listed counted)).idOf w.heap.next = some oid := by
        obtain ⟨b, x, he, hb, -⟩ := listed_stored counted hs ho
        simp only [IFromDB.core, Prod.mk.injEq] at hb
        simp [Lib.Conf.idOf, he, hb.1]
      have hp : w'.idOf w.heap.next = some oid := by
        rw [idOf_of_is (fun o c => hq.is) (hw₁.live k _ (by simp [Lib.Conf.cash_load])), hnew]
      rw [List.map_cons, List.map_cons, ih hw₁ hd₁ h', hp]
      simp [Doc.id?, hi]

/-- A listing of documents its class can be built of returns. -/
theorem exists_collect {k : Kind} (counted : Bool) {docs : List Doc} (hw : Sound w) (hd : Listed w k docs)
    (hof : ∀ d ∈ docs, ∃ o, k.dbClass.ofDoc d = .ok o) :
    ∃ r w', run (Controller.collect k (fun _ => .ok true) counted docs) w = .ok (r, w') := by
  induction docs generalizing w with
  | nil => exact ⟨[], w, rfl⟩
  | cons d docs ih =>
    obtain ⟨o, ho⟩ := hof d (by simp)
    obtain ⟨x, oid, -, hi, -⟩ := ofDoc_eq_ok.mp ho
    have hof' : ∀ d ∈ docs, ∃ o, k.dbClass.ofDoc d = .ok o := fun d' hd' => hof d' (List.mem_cons_of_mem _ hd')
    cases hc : w.cached k oid with
    | some p =>
      obtain ⟨r, w', h⟩ := ih hw hd.tail hof'
      exact ⟨p :: r, w', (run_collect_cons_iff (hw.live k)).mpr (.inr ⟨oid, r, rfl, hi, .inl ⟨p, hc, rfl, h⟩⟩)⟩
    | none =>
      have q₁ : Quiet anything w (w.load k (o.listed counted)) :=
        quiet_listed (fun _ => trivial) (hd d (by simp) oid hi) hc ho
      obtain ⟨r, w', h⟩ := ih (q₁.sound hw) (hd.tail.of_stored q₁.stored) hof'
      exact ⟨_, w', (run_collect_cons_iff (hw.live k)).mpr (.inr ⟨oid, r, rfl, hi, .inr ⟨o, hc, ho, rfl, h⟩⟩)⟩

theorem run_getAllSchedulesinDate_iff {julianDate : Int32} {group : ℕ} {i : Oid} {r : List ℕ} (hg : w.idOf group = some i) :
    run (ScheduleController.getAllSchedulesinDate julianDate (.to group)) w = .ok (r, w') ↔
      run (Controller.collect .schedules (fun _ => .ok true) true ((w.env.coll .schedules).docs.filter
        (Doc.fits [("Date", .int32 julianDate), ("Group", .oid i)]))) w = .ok (r, w') := by
  obtain ⟨b, x, hp, rfl⟩ : ∃ b x, w.heap.get group = some ⟨some b, x⟩ ∧ b.id = i := by
    unfold Lib.Conf.idOf at hg
    rcases hp : w.heap.get group with _ | ⟨_ | b, x⟩ <;> simp [hp] at hg
    exact ⟨b, x, rfl, hg⟩
  have hh := header_eq_ok.mpr ⟨x, hp⟩
  simp only [ScheduleController.getAllSchedulesinDate, run_bind_iff, run_deref_iff, run_fromDB_iff, run_find_iff]
  constructor
  · rintro ⟨_, _, ⟨hgr, rfl⟩, b', _, ⟨hb', rfl⟩, _, _, ⟨rfl, rfl⟩, h⟩
    obtain rfl := Pointer.to.inj hgr
    obtain rfl := Except.ok.inj (hb'.symm.trans hh)
    exact h
  · intro h
    exact ⟨group, w, ⟨rfl, rfl⟩, b, w, ⟨hh, rfl⟩, _, w, ⟨rfl, rfl⟩, h⟩

/-- What a query answers with: one object for each stored class of the day and the group, with its values. -/
structure Picked (w : World) (julianDate : Int32) (group : Oid) (r : List ℕ) (w' : World) : Prop where
  besides : Besides .schedules w w'
  nodup : (r.map w'.idOf).Nodup
  ids : ∀ o, some o ∈ r.map w'.idOf ↔ ∃ d l, w.stored .schedules o = some d ∧ d.IsLesson l ∧ l.On julianDate group
  entry : ∀ p ∈ r, p ∈ w'.cash .schedules

theorem picked_of_query {julianDate : Int32} {group : ℕ} {i : Oid} {r : List ℕ} (hw : Sound w) (hm : Mirrored w)
    (hg : w.idOf group = some i)
    (h : run (ScheduleController.getAllSchedulesinDate julianDate (.to group)) w = .ok (r, w')) :
    Picked w julianDate i r w' := by
  have h' := (run_getAllSchedulesinDate_iff hg).mp h
  set docs := (w.env.coll .schedules).docs.filter (Doc.fits [("Date", .int32 julianDate), ("Group", .oid i)])
  have hd : Listed w .schedules docs := listed_filter w .schedules _
  have hids := idOf_of_collect hw hd h'
  refine ⟨.of_quiet (quiet_collect (L := anything) (fun _ => trivial) hw hd h'), ?_, fun o => ?_, mem_cash_of_collect hw hd h'⟩
  · have hn : (((w.env.coll .schedules).docs).map Doc.id?).Nodup := by
      rw [docs_id?]
      have h := ((w.env.coll .schedules).rows.nodup).map (Option.some_injective _)
      rwa [List.map_map] at h
    rw [hids]
    exact hn.sublist (List.filter_sublist.map _)
  · rw [hids]
    constructor
    · intro ho
      obtain ⟨d, hdoc, hid⟩ := List.mem_map.mp ho
      obtain ⟨hin, hfit⟩ := List.mem_filter.mp hdoc
      obtain ⟨o', hs⟩ := Collection.mem_docs.mp hin
      have hso : w.stored .schedules o' = some d := hs
      obtain rfl : o' = o := by simpa [Doc.id?, stored_id hso] using hid
      obtain ⟨l, hl⟩ := hm.lessons o' d hso
      exact ⟨d, l, hso, hl, (hl.fits julianDate i).mp hfit⟩
    · rintro ⟨d, l, hs, hl, hon⟩
      refine List.mem_map.mpr ⟨d, List.mem_filter.mpr ⟨mem_docs_of_stored hs, (hl.fits julianDate i).mpr hon⟩, ?_⟩
      simp [Doc.id?, stored_id hs]

/-- A query for a group returns. -/
theorem exists_query {group : ℕ} {i : Oid} (hw : Sound w) (hm : Mirrored w) (hg : w.idOf group = some i)
    (julianDate : Int32) :
    ∃ r w', run (ScheduleController.getAllSchedulesinDate julianDate (.to group)) w = .ok (r, w') := by
  obtain ⟨r, w', h⟩ := exists_collect (k := .schedules) true hw (listed_filter w .schedules
    (Doc.fits [("Date", .int32 julianDate), ("Group", .oid i)])) fun d hd => by
      obtain ⟨o, hs⟩ := Collection.mem_docs.mp (List.mem_filter.mp hd).1
      have hso : w.stored .schedules o = some d := hs
      obtain ⟨l, hl⟩ := hm.lessons o d hso
      exact ⟨_, ofDoc_eq_ok.mpr ⟨_, o, hl.fields, stored_id hso, rfl⟩⟩
  exact ⟨r, w', (run_getAllSchedulesinDate_iff hg).mpr h⟩

end Cbt
