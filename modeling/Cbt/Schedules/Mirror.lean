import Cbt.Caches.Identity
import Cbt.Windows.Beside

/-! The schedules, stored and cached. Nothing updates a stored schedule, so its
document says for ever which class it is; while each id has one cached object, the
object has the document's own values. A new schedule, a deletion and everything
beside the schedules keep this. -/

namespace Cbt

open Lib.Command (run_bind_iff run_pure_iff)

variable {w w' : World}

/-- A class in the timetable of a group. -/
structure Lesson where
  date : QDate
  name : String
  para : Para
  group : Oid
  deriving DecidableEq, Repr

/-- The class a schedule's document is of. -/
structure Doc.IsLesson (d : Doc) (l : Lesson) : Prop where
  name : d.get? "Name" = some (.string l.name)
  date : d.get? "Date" = some (.int64 l.date.toJulianDay)
  para : d.get? "Para" = some (.int32 l.para)
  group : d.get? "Group" = some (.oid l.group)

/-- The object that is built of it. -/
def Lesson.schedule (l : Lesson) : Schedule := { date := l.date, name := l.name, paraNumber := l.para }

/-- The class is on a day, for a group. -/
def Lesson.On (l : Lesson) (julianDate : Int32) (group : Oid) : Prop :=
  l.date.toJulianDay.toInt = julianDate.toInt ∧ l.group = group

theorem Doc.IsLesson.unique {d : Doc} {l l' : Lesson} (h : d.IsLesson l) (h' : d.IsLesson l') : l = l' := by
  obtain ⟨date, name, para, group⟩ := l
  obtain ⟨date', name', para', group'⟩ := l'
  obtain ⟨hn, hd, hp, hg⟩ := h
  obtain ⟨hn', hd', hp', hg'⟩ := h'
  have hday : date.toJulianDay = date'.toJulianDay := by simpa [hd] using hd'
  have hdate : date = date' := by
    rw [← QDate.fromJulianDay_toJulianDay date, hday, QDate.fromJulianDay_toJulianDay]
  simp only [hn, hp, hg, Option.some.injEq, Bson.string.injEq, Bson.int32.injEq, Bson.oid.injEq] at hn' hp' hg'
  rw [hdate, hn', hp', hg']

theorem Doc.IsLesson.fields {d : Doc} {l : Lesson} (h : d.IsLesson l) :
    DBClass.scheduleDB.fields d = .ok (.schedule l.schedule) := by
  have hd := Doc.getInt64_eq_ok.mpr h.date
  have hn := Doc.getString_eq_ok.mpr h.name
  have hp := Doc.getInt32_eq_ok.mpr h.para
  simp [DBClass.fields, hd, hn, hp, bind, Except.bind, pure, Except.pure, Lesson.schedule]

/-- The filter of `GetAllSchedulesinDate` picks the classes of the day and the group. -/
theorem Doc.IsLesson.fits {d : Doc} {l : Lesson} (h : d.IsLesson l) (julianDate : Int32) (group : Oid) :
    Doc.fits [("Date", .int32 julianDate), ("Group", .oid group)] d = true ↔ l.On julianDate group := by
  simp [Doc.fits, h.date, h.group, Bson.same, Lesson.On]

/-- The cached schedules agree with the stored ones, and each stored one is a class. -/
structure Mirrored (w : World) : Prop where
  ids : ((w.cash .schedules).map w.idOf).Nodup
  lessons : ∀ o d, w.stored .schedules o = some d → ∃ l, d.IsLesson l
  entry : ∀ p ∈ w.cash .schedules, ∃ b x, w.heap.get p = some ⟨some b, x⟩ ∧ b.isExist = true ∧
    w.stored .schedules b.id = some b.doc ∧ ∀ l, b.doc.IsLesson l → x.bare = .schedule l.schedule

/-- Each stored schedule has a cached object. -/
def Held (w : World) : Prop := ∀ o d, w.stored .schedules o = some d → ∃ p ∈ w.cash .schedules, w.idOf p = some o

theorem kind_of_bare_schedule {x : Fields} {s : Schedule} (h : x.bare = .schedule s) : x.kind = .schedules := by
  cases x <;> first | rfl | cases h

namespace Mirrored

theorem idOf_eq (h : Mirrored w) (hk : KindKept .schedules w w') {p : ℕ} (hp : p ∈ w.cash .schedules) :
    w'.idOf p = w.idOf p := by
  obtain ⟨b, x, hg, hb, hs, hx⟩ := h.entry p hp
  obtain ⟨l, hl⟩ := h.lessons _ _ hs
  obtain ⟨b', x', hg', hc, -⟩ := hk p b x hg hb (kind_of_bare_schedule (hx l hl))
  simp only [IFromDB.core, Prod.mk.injEq] at hc
  rw [Lib.Conf.idOf_of_get hg, Lib.Conf.idOf_of_get hg', hc.1]

/-- A cached object that is kept goes on agreeing with its document. -/
theorem entry_kept (h : Mirrored w) (hk : KindKept .schedules w w') {p : ℕ} (hp : p ∈ w.cash .schedules)
    (hs : ∀ o d, w.stored .schedules o = some d → w.idOf p = some o → w'.stored .schedules o = some d) :
    ∃ b x, w'.heap.get p = some ⟨some b, x⟩ ∧ b.isExist = true ∧
      w'.stored .schedules b.id = some b.doc ∧ ∀ l, b.doc.IsLesson l → x.bare = .schedule l.schedule := by
  obtain ⟨b, x, hg, hb, hst, hx⟩ := h.entry p hp
  obtain ⟨l, hl⟩ := h.lessons _ _ hst
  obtain ⟨b', x', hg', hc, hx'⟩ := hk p b x hg hb (kind_of_bare_schedule (hx l hl))
  simp only [IFromDB.core, Prod.mk.injEq] at hc
  refine ⟨b', x', hg', by rw [hc.2.2, hb], ?_, ?_⟩
  · rw [hc.1, hc.2.1]
    exact hs _ _ hst (Lib.Conf.idOf_of_get hg)
  · rw [hc.2.1, hx']
    exact hx

theorem keep (h : Mirrored w) (hc : w'.cash .schedules = w.cash .schedules)
    (hs : w'.stored .schedules = w.stored .schedules) (hk : KindKept .schedules w w') : Mirrored w' := by
  refine ⟨?_, fun o d hd => h.lessons o d (hs ▸ hd), fun p hp => ?_⟩
  · rw [hc, List.map_congr_left fun p hp => h.idOf_eq hk hp]
    exact h.ids
  · rw [hc] at hp
    exact h.entry_kept hk hp fun o d hd _ => hs ▸ hd

/-- A stored schedule whose id is not cached may be loaded. -/
theorem load (h : Mirrored w) {b : IFromDB} {x : Fields} (hc : w.cached .schedules b.id = none)
    (hs : w.stored .schedules b.id = some b.doc) (hb : b.isExist = true) (hx : DBClass.scheduleDB.fields b.doc = .ok x) :
    Mirrored (w.load .schedules ⟨some b, x⟩) := by
  have hkept : KindKept .schedules w (w.load .schedules ⟨some b, x⟩) := kindKept_of_get fun p b' y hp _ _ => by
    rw [hp]
    exact Lib.Heap.get_push_of_some _ hp
  have hnew : (w.load .schedules ⟨some b, x⟩).idOf w.heap.next = some b.id := by simp [Lib.Conf.idOf]
  have hcash : (w.load .schedules ⟨some b, x⟩).cash .schedules = w.cash .schedules ++ [w.heap.next] := by
    rw [Lib.Conf.cash_load, if_pos rfl]
  refine ⟨?_, h.lessons, fun p hp => ?_⟩
  · rw [hcash, List.map_append, List.map_congr_left fun p hp => h.idOf_eq hkept hp, List.map_singleton, hnew,
      List.nodup_append]
    refine ⟨h.ids, by simp, ?_⟩
    rintro i hi j hj rfl
    obtain rfl := List.mem_singleton.mp hj
    obtain ⟨p, hp, hpi⟩ := List.mem_map.mp hi
    exact Lib.Conf.cached_eq_none.mp hc p hp hpi
  · rw [hcash] at hp
    rcases List.mem_append.mp hp with hp | hp
    · exact h.entry_kept hkept hp fun o d hd _ => hd
    · obtain rfl := List.mem_singleton.mp hp
      refine ⟨b, x, by simp, hb, hs, fun l hl => ?_⟩
      obtain rfl := Except.ok.inj (hl.fields.symm.trans hx)
      rfl

end Mirrored

theorem cls_of_kind_schedules {x : Fields} (h : x.kind = .schedules) : x.cls = .scheduleDB := by
  cases x <;> first | rfl | cases h

theorem Beside.mirrored (h : Beside .schedules w w') (hm : Mirrored w) : Mirrored w' := by
  cases h with
  | other hs hc hk => exact hm.keep hc hs hk
  | quiet h =>
    have hkept : KindKept .schedules w w' := h.kindKept
    cases h with
    | @load k b x _ hc hs hb hk hx =>
      by_cases hks : k = .schedules
      · subst hks
        rw [cls_of_kind_schedules hk] at hx
        exact hm.load hc hs hb hx
      · exact hm.keep (by rw [Lib.Conf.cash_load, if_neg (Ne.symm hks)]) rfl hkept
    | put => exact hm.keep rfl rfl hkept
    | push => exact hm.keep rfl rfl hkept
    | reap => exact hm.keep rfl rfl hkept

/-- A cached object is there for each schedule that had one. -/
theorem Beside.held (h : Beside .schedules w w') (hm : Mirrored w) (hh : Held w) : Held w' := by
  intro o d hd
  rw [h.stored] at hd
  obtain ⟨p, hp, ho⟩ := hh o d hd
  exact ⟨p, h.mem_cash hp, (hm.idOf_eq h.kept hp).trans ho⟩

namespace Besides

theorem mirrored (h : Besides .schedules w w') (hm : Mirrored w) : Mirrored w' := by
  induction h with
  | refl => exact hm
  | tail _ h ih => exact h.mirrored ih

theorem held (h : Besides .schedules w w') (hm : Mirrored w) (hh : Held w) : Held w' := by
  induction h with
  | refl => exact hh
  | tail h h' ih => exact h'.held (Besides.mirrored h hm) ih

end Besides

theorem mirrored_start {db : Database} (h : ∀ o d, db.get? .schedules o = some d → ∃ l, d.IsLesson l) :
    Mirrored (World.start db) where
  ids := by simp [World.start, Process.init, Lib.Conf.cash]
  lessons := h
  entry p hp := by simp [World.start, Process.init, Lib.Conf.cash] at hp

theorem held_start {db : Database} (h : ∀ o, db.get? .schedules o = none) : Held (World.start db) := by
  intro o d hd
  have hn : (World.start db).stored .schedules o = none := h o
  simp [hn] at hd

/-! ### Deletions -/

namespace Mirrored

/-- Each id is one cached object's. -/
theorem cached_eq (h : Mirrored w) {p : ℕ} {o : Oid} (hp : p ∈ w.cash .schedules) (ho : w.idOf p = some o) :
    w.cached .schedules o = some p := by
  cases hc : w.cached .schedules o with
  | none => exact absurd ho (Lib.Conf.cached_eq_none.mp hc p hp)
  | some q =>
    have hq : w.idOf q = w.idOf p := (Lib.Conf.cached_idOf hc).trans ho.symm
    rw [List.inj_on_of_nodup_map h.ids (Lib.Conf.cached_mem hc) hp hq]

variable {oid : Oid}

/-- The deleted document is gone, and so is its object or, without one, another. -/
theorem deleted (h : Mirrored w) (hd : Deleted w .schedules oid w') :
    Mirrored w' ∧ (∀ o, w'.stored .schedules o = if o = oid then none else w.stored .schedules o) ∧
      ∃ p, w.victim .schedules oid = some p ∧ w'.cash .schedules = (w.cash .schedules).filter (· ≠ p) ∧
        ∀ q, q ≠ p → w'.heap.get q = w.heap.get q := by
  obtain ⟨p, b, x, db, hv, hp, rfl, hdb⟩ := hd.effect
  have hget : ∀ q, q ≠ p → ((((w.setChanged .schedules true).dismiss p b x).setCash .schedules
      ((w.cash .schedules).filter (· ≠ p))).setEnv db).heap.get q = w.heap.get q := by
    intro q hq
    change ((w.setChanged .schedules true).dismiss p b x).heap.get q = _
    exact get_dismiss_of_ne (w.setChanged .schedules true) p b x (by simpa using hp) hq
  have hst : ∀ o, ((((w.setChanged .schedules true).dismiss p b x).setCash .schedules
      ((w.cash .schedules).filter (· ≠ p))).setEnv db).stored .schedules o =
        if o = oid then none else w.stored .schedules o := by
    intro o
    rw [Lib.Conf.stored_setEnv, hdb]
    simp
  refine ⟨⟨?_, fun o d hod => ?_, fun q hq => ?_⟩, hst, p, hv, by simp, hget⟩
  · have hmap : ((w.cash .schedules).filter (· ≠ p)).map ((((w.setChanged .schedules true).dismiss p b x).setCash
        .schedules ((w.cash .schedules).filter (· ≠ p))).setEnv db).idOf =
          ((w.cash .schedules).filter (· ≠ p)).map w.idOf := by
      refine List.map_congr_left fun q hq => ?_
      simp only [Lib.Conf.idOf, hget q (by simpa using (List.mem_filter.mp hq).2)]
    rw [Lib.Conf.cash_setEnv, Lib.Conf.cash_setCash_self, hmap]
    exact h.ids.sublist (List.filter_sublist.map _)
  · rw [hst] at hod
    split_ifs at hod
    exact h.lessons o d hod
  · rw [Lib.Conf.cash_setEnv, Lib.Conf.cash_setCash_self] at hq
    obtain ⟨hq, hqp⟩ := List.mem_filter.mp hq
    obtain ⟨b', x', hg, hb', hs, hx'⟩ := h.entry q hq
    refine ⟨b', x', (hget q (by simpa using hqp)).trans hg, hb', ?_, hx'⟩
    rw [hst, if_neg, hs]
    -- the victim is the one cached object with the id
    rintro rfl
    have hc := h.cached_eq hq (Lib.Conf.idOf_of_get hg)
    have hqv : q = p := by simpa [Lib.Conf.victim, hc] using hv
    simp [hqv] at hqp

/-- The other schedules go on having their objects when the deleted one had its own. -/
theorem held_deleted (h : Mirrored w) (hh : Held w) (hd : Deleted w .schedules oid w')
    (hs : (w.stored .schedules oid).isSome) : Held w' := by
  obtain ⟨d₀, hd₀⟩ := Option.isSome_iff_exists.mp hs
  obtain ⟨q, hq, hqo⟩ := hh oid d₀ hd₀
  obtain ⟨-, hst, p, hv, hcash, hget⟩ := h.deleted hd
  have hqp : q = p := by simpa [Lib.Conf.victim, h.cached_eq hq hqo] using hv
  subst hqp
  intro o d hod
  rw [hst] at hod
  split_ifs at hod with ho
  obtain ⟨r, hr, hro⟩ := hh o d hod
  have hrq : r ≠ q := by
    rintro rfl
    exact ho (Option.some.inj (hro.symm.trans hqo))
  exact ⟨r, by simp [hcash, hr, hrq], by simp only [Lib.Conf.idOf, hget r hrq]; exact hro⟩

end Mirrored

end Cbt
