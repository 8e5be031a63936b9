import Cbt.Caches.Answers
import Cbt.Calls.Deleting
import Cbt.Model.Client
import Cbt.Schedules.Lessons

/-! The schedule controller against a plain timetable. The timetable is a set of
classes under their ids: an addition puts one in, a deletion takes one out, and a
query asks for those of a day and a group. The controller simulates it as long as
no schedule is deleted twice: the second deletion of an id dismisses the first
cached object, and with an empty cache it has nothing to dismiss. -/

namespace Cbt

open Lib.Command (run_bind_iff run_pure_iff)

/-- The classes that are there, and the ids of those the controller ever returned. -/
structure Timetable where
  lesson : Oid → Option Lesson
  returned : List Oid

namespace Timetable

def empty : Timetable := ⟨fun _ => none, []⟩

def add (t : Timetable) (o : Oid) (l : Lesson) : Timetable := ⟨Function.update t.lesson o (some l), o :: t.returned⟩

def delete (t : Timetable) (o : Oid) : Timetable := ⟨Function.update t.lesson o none, t.returned⟩

@[simp] theorem lesson_add (t : Timetable) (o : Oid) (l : Lesson) (o' : Oid) :
    (t.add o l).lesson o' = if o' = o then some l else t.lesson o' := Function.update_apply _ _ _ _

@[simp] theorem lesson_delete (t : Timetable) (o o' : Oid) :
    (t.delete o).lesson o' = if o' = o then none else t.lesson o' := Function.update_apply _ _ _ _

end Timetable

/-- The calls of the controller, and any operation that does not write to the schedules. -/
inductive ScheduleCall where
  | add (date : QDate) (name : String) (para : Para) (group teacher : ℕ)
  | delete (oid : Oid)
  | query (julianDate : Int32) (group : ℕ)
  | other (a : Action)

/-- The program and the timetable it should show. -/
structure Timetabled where
  world : World
  timetable : Timetable

def Timetabled.start (db : Database) : Timetabled := ⟨World.start db, .empty⟩

namespace ScheduleCall

/-- A call returns, and the timetable follows. -/
def Step : ScheduleCall → Timetabled → Timetabled → Prop
  | .add date name para group teacher, s, s' => ∃ i p o, s.world.idOf group = some i ∧
      run (storeSchedule date name para (some group) (some teacher)) s.world = .ok (some p, s'.world) ∧
      s'.world.idOf p = some o ∧ s'.timetable = s.timetable.add o ⟨date, name, para, i⟩
  | .delete oid, s, s' => (∃ r, run (Controller.delete .schedules oid) s.world = .ok (r, s'.world)) ∧
      s'.timetable = s.timetable.delete oid
  | .query julianDate group, s, s' =>
      (∃ r, run (ScheduleController.getAllSchedulesinDate julianDate (.to group)) s.world = .ok (r, s'.world)) ∧
      s'.timetable = s.timetable
  | .other a, s, s' => a.Step s.world s'.world ∧ s'.timetable = s.timetable

/-- The group and the teacher exist, and what is deleted was returned before. -/
def Proper : ScheduleCall → Timetabled → Prop
  | .add _ _ _ group teacher, s => (∃ i, s.world.Is group i .groupDB) ∧ ∃ j, s.world.Is teacher j .teacherInfoDB
  | .delete oid, s => oid ∈ s.timetable.returned
  | .query _ group, s => ∃ i, s.world.Is group i .groupDB
  | .other a, _ => ¬ a.writes .schedules

/-- Moreover what is deleted was not deleted yet. -/
def OnHeld (c : ScheduleCall) (s : Timetabled) : Prop :=
  c.Proper s ∧ ∀ oid, c = .delete oid → (s.timetable.lesson oid).isSome

end ScheduleCall

/-- The answer of a query: one object for each class of the day and the group, with the values it was added with. -/
structure Answers (t : Timetable) (julianDate : Int32) (group : Oid) (r : List ℕ) (w : World) : Prop where
  once : (r.map w.idOf).Nodup
  ids : ∀ o, some o ∈ r.map w.idOf ↔ ∃ l, t.lesson o = some l ∧ l.On julianDate group
  values : ∀ p ∈ r, ∃ o l c sched, w.idOf p = some o ∧ t.lesson o = some l ∧ w.heap.get p = some ⟨c, .schedule sched⟩ ∧
    sched.date = l.date ∧ sched.name = l.name ∧ sched.paraNumber = l.para

/-- The controller shows the timetable: every query is answered by it, every class has its object, and the calls that
may be made return. -/
structure Refines (guard : ScheduleCall → Timetabled → Prop) (s : Timetabled) : Prop where
  answers : ∀ julianDate group i, s.world.idOf group = some i → ∃ r w',
    run (ScheduleController.getAllSchedulesinDate julianDate (.to group)) s.world = .ok (r, w') ∧
      Answers s.timetable julianDate i r w'
  objects : ∀ o l, s.timetable.lesson o = some l →
    ∃ p ∈ s.world.cash .schedules, s.world.idOf p = some o ∧ s.world.Alive p
  returns : ∀ c, guard c s → (∀ a, c ≠ .other a) → ∃ s', c.Step s s'

/-- The invariant that carries the simulation. -/
structure Simulates (s : Timetabled) : Prop where
  sound : Sound s.world
  mirrored : Mirrored s.world
  held : Held s.world
  lessons : ∀ o l, s.timetable.lesson o = some l ↔ ∃ d, s.world.stored .schedules o = some d ∧ d.IsLesson l

variable {s s' : Timetabled}

namespace Simulates

theorem start {db : Database} (h : ∀ o, db.get? .schedules o = none) : Simulates (.start db) where
  sound := sound_start db
  mirrored := mirrored_start fun o d hd => by simp [h o] at hd
  held := held_start h
  lessons o l := by
    have hn : (World.start db).stored .schedules o = none := h o
    simp [Timetabled.start, Timetable.empty, hn]

/-- Whatever happens beside the schedules keeps the simulation. -/
theorem beside (h : Simulates s) (hb : Besides .schedules s.world s'.world) (hw : Sound s'.world)
    (ht : s'.timetable = s.timetable) : Simulates s' := by
  refine ⟨hw, Besides.mirrored hb h.mirrored, Besides.held hb h.mirrored h.held, fun o l => ?_⟩
  rw [ht, Besides.stored hb]
  exact h.lessons o l

theorem added (h : Simulates s) {l : Lesson} {p : ℕ} {o : Oid} (ha : LessonAdded s.world l p s'.world)
    (hw : Sound s'.world) (ho : s'.world.idOf p = some o) (ht : s'.timetable = s.timetable.add o l) : Simulates s' := by
  refine ⟨hw, ha.mirrored h.mirrored, ha.held h.mirrored h.held, fun o' l' => ?_⟩
  obtain ⟨⟨d, b, hl, hs, hp, hb⟩, -, -⟩ := ha
  simp only [IFromDB.core, Prod.mk.injEq] at hb
  have hid : s.world.env.nextOid = o := by
    rw [← hb.1]
    exact Option.some.inj ((Lib.Conf.idOf_of_get hp).symm.trans ho)
  rw [ht, Timetable.lesson_add, hs]
  by_cases he : o' = o
  · subst he
    rw [if_pos rfl, if_pos ⟨rfl, hid.symm⟩]
    constructor
    · rintro hll
      obtain rfl := Option.some.inj hll
      exact ⟨d, rfl, hl⟩
    · rintro ⟨d', hd, hl'⟩
      obtain rfl := Option.some.inj hd
      rw [hl.unique hl']
  · rw [if_neg he, if_neg fun hn => he (hn.2.trans hid)]
    exact h.lessons o' l'

theorem deleted (h : Simulates s) {oid : Oid} (hd : Deleted s.world .schedules oid s'.world)
    (hh : (s.timetable.lesson oid).isSome) (ht : s'.timetable = s.timetable.delete oid) : Simulates s' := by
  obtain ⟨l, hl⟩ := Option.isSome_iff_exists.mp hh
  obtain ⟨d, hs, -⟩ := (h.lessons oid l).mp hl
  obtain ⟨hm, hst, -⟩ := h.mirrored.deleted hd
  refine ⟨hd.sound h.sound, hm, h.mirrored.held_deleted h.held hd (by rw [hs]; rfl), fun o l' => ?_⟩
  rw [ht, Timetable.lesson_delete, hst]
  by_cases he : o = oid
  · simp [he]
  · rw [if_neg he, if_neg he]
    exact h.lessons o l'

/-- One call keeps the simulation. -/
theorem step (h : Simulates s) {c : ScheduleCall} (hg : c.OnHeld s) (hs : c.Step s s') : Simulates s' := by
  cases c with
  | add date name para group teacher =>
    obtain ⟨i, p, o, hi, hrun, ho, ht⟩ := hs
    obtain ⟨⟨i', hgr⟩, -⟩ := hg.1
    obtain rfl := Option.some.inj (hi.symm.trans hgr.idOf)
    obtain ⟨p', hp, ha⟩ := lessonAdded h.sound hgr hrun
    obtain rfl := Option.some.inj hp
    exact h.added ha (sound_storeSchedule h.sound hrun) ho ht
  | delete oid =>
    obtain ⟨⟨r, hrun⟩, ht⟩ := hs
    exact h.deleted (run_delete h.sound hrun) (hg.2 oid rfl) ht
  | query julianDate group =>
    obtain ⟨⟨r, hrun⟩, ht⟩ := hs
    have hq := reads_getAllSchedulesinDate (L := anything) (fun _ => trivial) _ _ _ _ _ hrun h.sound
    exact h.beside (.of_quiet hq) (hq.sound h.sound) ht
  | other a =>
    obtain ⟨hstep, ht⟩ := hs
    have ho := outcome_of_step h.sound hstep
    exact h.beside (ho.besides h.sound hg.1 (by simp)) (ho.sound h.sound) ht

theorem answers (h : Simulates s) {julianDate : Int32} {group : ℕ} {i : Oid} (hg : s.world.idOf group = some i) :
    ∃ r w', run (ScheduleController.getAllSchedulesinDate julianDate (.to group)) s.world = .ok (r, w') ∧
      Answers s.timetable julianDate i r w' := by
  obtain ⟨r, w', hrun⟩ := exists_query h.sound h.mirrored hg julianDate
  have hp := picked_of_query h.sound h.mirrored hg hrun
  have hids : ∀ o, some o ∈ r.map w'.idOf ↔ ∃ l, s.timetable.lesson o = some l ∧ l.On julianDate i := by
    intro o
    rw [hp.ids]
    constructor
    · rintro ⟨d, l, hd, hl, hon⟩
      exact ⟨l, (h.lessons o l).mpr ⟨d, hd, hl⟩, hon⟩
    · rintro ⟨l, hl, hon⟩
      obtain ⟨d, hd, hdl⟩ := (h.lessons o l).mp hl
      exact ⟨d, l, hd, hdl, hon⟩
  refine ⟨r, w', hrun, hp.nodup, hids, fun p hpr => ?_⟩
  obtain ⟨b, x, hget, -, hst, hx⟩ := (Besides.mirrored hp.besides h.mirrored).entry p (hp.entry p hpr)
  have ho := Lib.Conf.idOf_of_get hget
  obtain ⟨l, hl, -⟩ := (hids b.id).mp (ho ▸ List.mem_map_of_mem hpr)
  obtain ⟨d, hd, hdl⟩ := (h.lessons b.id l).mp hl
  rw [Besides.stored hp.besides] at hst
  obtain rfl := Option.some.inj (hd.symm.trans hst)
  have hbare := hx l hdl
  cases x <;> simp only [Fields.bare, reduceCtorEq, Fields.schedule.injEq] at hbare
  rename_i sched
  have hfields := Schedule.mk.inj hbare
  exact ⟨b.id, l, some b, sched, ho, hl, hget, hfields.1, hfields.2.1, hfields.2.2.1⟩

/-- Every class has its own cached object. -/
theorem objects (h : Simulates s) {o : Oid} {l : Lesson} (hl : s.timetable.lesson o = some l) :
    ∃ p ∈ s.world.cash .schedules, s.world.idOf p = some o ∧ s.world.Alive p := by
  obtain ⟨d, hd, -⟩ := (h.lessons o l).mp hl
  obtain ⟨p, hp, hpo⟩ := h.held o d hd
  exact ⟨p, hp, hpo, h.sound.live .schedules p hp⟩

/-- A call that may be made returns. -/
theorem returns (h : Simulates s) {c : ScheduleCall} (hg : c.OnHeld s) (hc : ∀ a, c ≠ .other a) : ∃ s', c.Step s s' := by
  cases c with
  | add date name para group teacher =>
    obtain ⟨⟨i, hgr⟩, ⟨j, ht⟩⟩ := hg.1
    obtain ⟨r, w', hrun⟩ := exists_storeSchedule h.sound hgr ht date name para
    obtain ⟨p, rfl, ha⟩ := lessonAdded h.sound hgr hrun
    obtain ⟨d, b, -, -, hp, -⟩ := ha.doc
    exact ⟨⟨w', _⟩, i, p, b.id, hgr.idOf, hrun, Lib.Conf.idOf_of_get hp, rfl⟩
  | delete oid =>
    obtain ⟨l, hl⟩ := Option.isSome_iff_exists.mp (hg.2 oid rfl)
    obtain ⟨p, hp, hpo, -⟩ := h.objects hl
    have hv : s.world.victim .schedules oid = some p := by simp [Lib.Conf.victim, h.mirrored.cached_eq hp hpo]
    have hends : ∃ r w', DeleteEnds s.world .schedules oid false r w' :=
      exists_deleteEnds (h.sound.live .schedules).held hv
    obtain ⟨r, w', hend⟩ := hends
    cases hend with
    | answered hrun => exact ⟨⟨w', _⟩, ⟨_, hrun⟩, rfl⟩
  | query julianDate group =>
    obtain ⟨i, hgr⟩ := hg.1
    obtain ⟨r, w', hrun⟩ := exists_query h.sound h.mirrored hgr.idOf julianDate
    exact ⟨⟨w', _⟩, ⟨r, hrun⟩, rfl⟩
  | other a => exact absurd rfl (hc a)

theorem refines (h : Simulates s) : Refines ScheduleCall.OnHeld s where
  answers _ _ _ hg := h.answers hg
  objects _ _ hl := h.objects hl
  returns _ hg hc := h.returns hg hc

end Simulates

/-- After every run of calls in which no schedule is deleted twice, the controller shows the timetable. -/
theorem refines_of_run {db : Database} {cs : List ScheduleCall} (hdb : ∀ o, db.get? .schedules o = none)
    (hr : Lib.Run ScheduleCall.Step ScheduleCall.OnHeld (.start db) cs s) : Refines ScheduleCall.OnHeld s := by
  have h := hr.invariant (I := Simulates) (.start hdb) fun _ _ _ h hg hs => h.step hg hs
  exact h.refines

/-! ### A run that deletes a schedule twice -/

/-- The id and the class of an object that exists. -/
def Lib.Conf.is? (w : World) (p : ℕ) : Option (Oid × DBClass) :=
  (w.heap.get p).bind fun o => o.fromDB.bind fun b => if b.isExist then some (b.id, o.fields.cls) else none

theorem Lib.Conf.is_of_is? {w : World} {p : ℕ} {o : Oid} {c : DBClass} (h : w.is? p = some (o, c)) : w.Is p o c := by
  unfold Lib.Conf.is? at h
  rcases hp : w.heap.get p with _ | ⟨_ | b, x⟩ <;> simp only [hp, Option.bind_none, Option.bind_some, reduceCtorEq] at h
  split_ifs at h with hb
  simp only [Option.some.injEq, Prod.mk.injEq] at h
  exact ⟨b, x, hp, hb, h⟩

/-- Operations that do not write to the schedules, one after the other. -/
theorem run_of_others {as : List Action} {w w' : World} (h : play as w = some w') (ha : ∀ a ∈ as, ¬ a.writes .schedules)
    (t : Timetable) : Lib.Run ScheduleCall.Step ScheduleCall.OnHeld ⟨w, t⟩ (as.map .other) ⟨w', t⟩ := by
  induction as generalizing w with
  | nil =>
    obtain rfl := Option.some.inj h
    exact .nil
  | cons a as ih =>
    obtain ⟨w₁, h₁, h₂⟩ := Option.bind_eq_some_iff.mp h
    obtain ⟨hw, has⟩ := List.forall_mem_cons.mp ha
    have h₀ : Lib.Run ScheduleCall.Step ScheduleCall.OnHeld ⟨w, t⟩ [.other a] ⟨w₁, t⟩ :=
      .snoc .nil ⟨hw, fun _ hc => by cases hc⟩ ⟨Action.step_of_next? h₁, rfl⟩
    exact Lib.Run.append h₀ (ih h₂ has)

/-- A class is added for a group and a teacher that were loaded. -/
theorem onHeld_add {date : QDate} {name : String} {para : Para} {group teacher : ℕ} {i j : Oid}
    (hg : s.world.is? group = some (i, .groupDB)) (ht : s.world.is? teacher = some (j, .teacherInfoDB)) :
    (ScheduleCall.add date name para group teacher).OnHeld s :=
  ⟨⟨⟨i, Lib.Conf.is_of_is? hg⟩, ⟨j, Lib.Conf.is_of_is? ht⟩⟩, fun _ hc => by cases hc⟩

theorem step_add (date : QDate) (name : String) (para : Para) {group teacher p : ℕ} {i o : Oid} {w : World}
    (hg : s.world.is? group = some (i, .groupDB))
    (hrun : run (storeSchedule date name para (some group) (some teacher)) s.world = .ok (some p, w))
    (ho : w.idOf p = some o) :
    (ScheduleCall.add date name para group teacher).Step s ⟨w, s.timetable.add o ⟨date, name, para, i⟩⟩ :=
  ⟨i, p, o, (Lib.Conf.is_of_is? hg).idOf, hrun, ho, rfl⟩

theorem step_delete {oid : Oid} {r : Bool} {w : World} (hrun : run (Controller.delete .schedules oid) s.world = .ok (r, w)) :
    (ScheduleCall.delete oid).Step s ⟨w, s.timetable.delete oid⟩ := ⟨⟨r, hrun⟩, rfl⟩

/-- The group and the teacher are loaded. -/
def loadBoth : List Action := [.getFromDB .groups 1 .admin, .getFromDB .infos 0 .teacher]

theorem get?_oneGroup (o : Oid) : oneGroup.get? .schedules o = none := by
  rw [oneGroup, Database.get?_insert, Database.get?_insert]
  simp only [reduceCtorEq, false_and, if_false]
  rfl

/-- One class is added. -/
theorem refines_of_add : ∃ s : Timetabled, s.timetable.lesson 2 = some ⟨.null, "name", 0, 1⟩ ∧
    Refines ScheduleCall.OnHeld s := by
  have hplay : (play loadBoth (World.start oneGroup)).any (fun w =>
      w.is? 0 = some (1, .groupDB) ∧ w.is? 1 = some (0, .teacherInfoDB) ∧
        (yields (storeSchedule .null "name" 0 (some 0) (some 1)) w).any (fun r =>
          r.1 = some 3 ∧ r.2.idOf 3 = some 2) = true) = true := by decide +kernel
  obtain ⟨w, hw, hc⟩ := Option.any_eq_true .. |>.mp hplay
  obtain ⟨hg, ht, hadd⟩ := of_decide_eq_true hc
  obtain ⟨⟨p, w'⟩, hy, hc'⟩ := Option.any_eq_true .. |>.mp hadd
  obtain ⟨rfl, ho⟩ := of_decide_eq_true hc'
  have h₀ := run_of_others hw (by simp [loadBoth, Action.writes]) .empty
  have h₁ := Lib.Run.snoc h₀ (onHeld_add (s := ⟨w, .empty⟩) hg ht) (step_add .null "name" 0
    (s := ⟨w, .empty⟩) hg (run_of_yields hy) ho)
  exact ⟨_, by simp, refines_of_run get?_oneGroup h₁⟩

/-- Two classes are added and the first is deleted twice; then the second cannot be deleted. -/
theorem not_refines_of_every_run : ¬ ∀ db cs s, (∀ o, db.get? .schedules o = none) →
    Lib.Run ScheduleCall.Step ScheduleCall.Proper (.start db) cs s → Refines ScheduleCall.Proper s := by
  intro h
  have hplay : (play loadBoth (World.start oneGroup)).any (fun w =>
      w.is? 0 = some (1, .groupDB) ∧ w.is? 1 = some (0, .teacherInfoDB) ∧
        (yields (storeSchedule .null "name" 0 (some 0) (some 1)) w).any (fun r =>
          r.1 = some 3 ∧ r.2.idOf 3 = some 2 ∧ r.2.is? 0 = some (1, .groupDB) ∧ r.2.is? 1 = some (0, .teacherInfoDB) ∧
            (yields (storeSchedule .null "name" 1 (some 0) (some 1)) r.2).any (fun r =>
              r.1 = some 5 ∧ r.2.idOf 5 = some 3 ∧ (yields (Controller.delete .schedules 2) r.2).any (fun r =>
                (yields (Controller.delete .schedules 2) r.2).any (fun r =>
                  (yields (Controller.delete .schedules 3) r.2).isNone) = true) = true) = true) = true) = true := by
    decide +kernel
  obtain ⟨w, hw, hc⟩ := Option.any_eq_true .. |>.mp hplay
  obtain ⟨hg, ht, hadd⟩ := of_decide_eq_true hc
  obtain ⟨⟨p₁, w₁⟩, hy₁, hc₁⟩ := Option.any_eq_true .. |>.mp hadd
  obtain ⟨rfl, ho₁, hg₁, ht₁, hadd₁⟩ := of_decide_eq_true hc₁
  obtain ⟨⟨p₂, w₂⟩, hy₂, hc₂⟩ := Option.any_eq_true .. |>.mp hadd₁
  obtain ⟨rfl, ho₂, hdel⟩ := of_decide_eq_true hc₂
  obtain ⟨⟨b₃, w₃⟩, hy₃, hc₃⟩ := Option.any_eq_true .. |>.mp hdel
  obtain ⟨⟨b₄, w₄⟩, hy₄, hnone⟩ := Option.any_eq_true .. |>.mp (of_decide_eq_true hc₃)
  have h₀ := Lib.Run.mono (fun _ _ hg => hg.1) (run_of_others hw (by simp [loadBoth, Action.writes]) .empty)
  have h₁ := Lib.Run.snoc h₀ (onHeld_add (s := ⟨w, .empty⟩) hg ht).1 (step_add .null "name" 0
    (s := ⟨w, .empty⟩) hg (run_of_yields hy₁) ho₁)
  have h₂ := Lib.Run.snoc h₁ (onHeld_add (s := ⟨w₁, _⟩) hg₁ ht₁).1 (step_add .null "name" 1
    (s := ⟨w₁, _⟩) hg₁ (run_of_yields hy₂) ho₂)
  have h₃ := Lib.Run.snoc h₂ (show (ScheduleCall.delete 2).Proper _ by simp [ScheduleCall.Proper, Timetable.add])
    (step_delete (run_of_yields hy₃))
  have h₄ := Lib.Run.snoc h₃ (show (ScheduleCall.delete 2).Proper _ by
    simp [ScheduleCall.Proper, Timetable.add, Timetable.delete]) (step_delete (run_of_yields hy₄))
  obtain ⟨s', ⟨b, hrun⟩, -⟩ := (h _ _ _ get?_oneGroup h₄).returns (.delete 3)
    (by simp [ScheduleCall.Proper, Timetable.add, Timetable.delete]) (fun a ha => by cases ha)
  -- nothing is cached, although the second schedule is there
  have hsome : (yields (Controller.delete .schedules 3) w₄).isSome := by
    unfold yields
    rw [hrun]
    rfl
  simp [Option.isNone_iff_eq_none.mp hnone] at hsome

end Cbt
