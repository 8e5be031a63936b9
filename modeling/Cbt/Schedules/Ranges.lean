import Cbt.Schedules.Slots
import Cbt.Windows.Bounds

/-! Rows of the table. `dropEvent` passes on the row under the drop, which is `-1`
when there is none, and neither `AddSchedule` nor the class of the stored document
nor `setSchedules` looks at the number again before it is an index. While every
drop that finds a group and a teacher chosen is on a row, each stored number is one
of a row, and no screen that shows schedules leaves its array. -/

namespace Cbt

open Lib.Command (run_bind_iff run_pure_iff run_bind_error_iff)

variable {w w' : World}

/-- Every stored schedule has the number of a row. -/
def StoredInRows (w : World) : Prop :=
  ∀ o d, w.stored .schedules o = some d → ∃ n, d.get? "Para" = some (.int32 n) ∧ 0 ≤ n.toInt ∧ n.toInt < 8

/-! ### Events -/

/-- The slots that show schedules. -/
def Slot.Shows : Slot → Prop
  | .setGroupSch _ | .setAccToSchedule _ | .dataChanged _ | .addSchedule _ _ | .deleteSchedule _ | .updateScheduleScrean => True
  | _ => False

/-- An event of the administrator's window and of a log-in, or the student's window is drawn again. -/
inductive Happening where
  | event (e : Event)
  | updateWindow (win : StudentWindow)

def Happening.Step : Happening → Client → Client → Prop
  | .event e, c, c' => e.Step c c'
  | .updateWindow win, c, c' => c'.win = c.win ∧ ∃ schedules, run win.updateWindow c.world = .ok (schedules, c'.world)

/-- Schedules are shown, and an index outside of their array ends it. -/
def Happening.Overruns : Happening → Client → Prop
  | .event (.slot s), c => s.Shows ∧ run (s.cmd c.win) c.world = .error .outOfRange
  | .event (.logIn state login password date), c =>
    run (StartWindow.logIn state { date } login password) c.world = .error .outOfRange
  | .updateWindow win, c => run win.updateWindow c.world = .error .outOfRange
  | _, _ => False

/-- Schedules are written by the window's slots only, and a drop finds a row or nothing chosen. -/
def Happening.FindsRow : Happening → Client → Prop
  | .event (.slot (.addSchedule _ rowIndex)), c => c.win.Chosen c.world → 0 ≤ rowIndex.toInt ∧ rowIndex.toInt < 8
  | .event (.call a), _ => ¬ a.writes .schedules
  | _, _ => True

/-- Schedules are written by the window's slots only, and a drop has an index that `rowAt` may return. -/
def Happening.OfRowAt : Happening → Prop
  | .event (.slot (.addSchedule _ rowIndex)) => -1 ≤ rowIndex.toInt ∧ rowIndex.toInt < 8
  | .event (.call a) => ¬ a.writes .schedules
  | _ => True

/-! ### The invariant -/

/-- What carries the range over runs. -/
structure Ranged (w : World) : Prop where
  sound : Sound w
  mirrored : Mirrored w
  rows : ∀ o d l, w.stored .schedules o = some d → d.IsLesson l → 0 ≤ l.para.toInt ∧ l.para.toInt < 8

/-- From a state with the invariant a command leaves no array and comes back to the invariant. -/
abbrev InRange {α : Type} (m : Cmd α) : Prop := Lib.Command.Safe Database.serve .outOfRange Ranged m

namespace Ranged

theorem storedInRows (h : Ranged w) : StoredInRows w := by
  intro o d hd
  obtain ⟨l, hl⟩ := h.mirrored.lessons o d hd
  exact ⟨l.para, hl.para, h.rows o d l hd hl⟩

theorem besides (h : Ranged w) (hb : Besides .schedules w w') (hw : Sound w') : Ranged w' := by
  refine ⟨hw, Besides.mirrored hb h.mirrored, fun o d l hd => h.rows o d l ?_⟩
  rwa [← Besides.stored hb]

theorem deleted (h : Ranged w) {oid : Oid} (hd : Deleted w .schedules oid w') : Ranged w' := by
  obtain ⟨hm, hs, -⟩ := h.mirrored.deleted hd
  refine ⟨hd.sound h.sound, hm, fun o d l hod => h.rows o d l ?_⟩
  rw [hs] at hod
  split_ifs at hod
  exact hod

/-- A class of a row is added. -/
theorem rows_added (h : Ranged w) {l : Lesson} {p : ℕ} (ha : LessonAdded w l p w') (hl : 0 ≤ l.para.toInt ∧ l.para.toInt < 8)
    {o : Oid} {d : Doc} {l' : Lesson} (hd : w'.stored .schedules o = some d) (hl' : d.IsLesson l') :
    0 ≤ l'.para.toInt ∧ l'.para.toInt < 8 := by
  obtain ⟨⟨d₀, b, hd₀, hs, -⟩, -⟩ := ha
  rw [hs] at hd
  split_ifs at hd
  · obtain rfl := Option.some.inj hd
    exact hl'.unique hd₀ ▸ hl
  · exact h.rows o d l' hd hl'

theorem added (h : Ranged w) {l : Lesson} {p : ℕ} (ha : LessonAdded w l p w') (hw : Sound w')
    (hl : 0 ≤ l.para.toInt ∧ l.para.toInt < 8) : Ranged w' :=
  ⟨hw, ha.mirrored h.mirrored, fun _ _ _ hd hl' => h.rows_added ha hl hd hl'⟩

theorem start {db : Database} (h : ∀ o d, db.get? .schedules o = some d →
    ∃ l, d.IsLesson l ∧ 0 ≤ l.para.toInt ∧ l.para.toInt < 8) : Ranged (World.start db) := by
  refine ⟨sound_start db, mirrored_start fun o d hd => ?_, fun o d l hd hl => ?_⟩
  · obtain ⟨l, hl, -⟩ := h o d hd
    exact ⟨l, hl⟩
  · obtain ⟨l', hl', hrange⟩ := h o d hd
    exact hl.unique hl' ▸ hrange

end Ranged

namespace InRange

variable {α β : Type} {m : Cmd α}

theorem pure (a : α) : InRange (Pure.pure a : Cmd α) := Lib.Command.Safe.pure a

theorem fault {e : Fault} (he : e ≠ .outOfRange) : InRange (Lib.Command.fault e : Cmd α) :=
  Lib.Command.Safe.of_avoids (.fault he) fun _ _ _ h _ => ((Lib.Command.run_fault_iff _).mp h).elim

theorem bind {f : α → Cmd β} (hm : InRange m) (hf : ∀ a, InRange (f a)) : InRange (m >>= f) :=
  Lib.Command.Safe.bind hm hf

/-- A command that uses no index and writes to other collections. -/
theorem of_does (hb : Bounded m) (hd : Does (· ≠ .schedules) m) : InRange m := by
  refine Lib.Command.Safe.of_avoids hb fun w a w' h hw => ?_
  have ha := hd _ _ _ h
  exact hw.besides (Acts.besides ha hw.sound (by simp)) (ha.sound hw.sound)

theorem of_views (hb : Bounded m) (hv : Views m) : InRange m := of_does hb (.of_views hv)

end InRange

/-! ### Screens -/

/-- The schedules a query finds fill the table. -/
theorem inRange_fill (julianDate : Int32) (group : Pointer) : InRange (do
    ScheduleTable.setSchedules (← ScheduleController.getAllSchedulesinDate julianDate group)) := by
  intro w hw
  refine ⟨fun h => ?_, fun a w' h => ?_⟩
  · rcases (run_bind_error_iff _).mp h with h | ⟨r, w₁, hquery, hset⟩
    · exact bounded_getAllSchedulesinDate julianDate group w h
    · obtain ⟨g, i, rfl, hi⟩ : ∃ g i, group = .to g ∧ w.idOf g = some i := by
        simp only [ScheduleController.getAllSchedulesinDate, run_bind_iff, run_deref_iff, run_fromDB_iff] at hquery
        obtain ⟨g, _, ⟨rfl, rfl⟩, b, _, ⟨hb, rfl⟩, -⟩ := hquery
        obtain ⟨x, hx⟩ := header_eq_ok.mp hb
        exact ⟨g, b.id, rfl, Lib.Conf.idOf_of_get hx⟩
      obtain ⟨schedules, rows, -, hok, -⟩ := exists_setSchedules (row_of_query hw.sound hw.mirrored hi hw.rows hquery)
      cases hok.symm.trans hset
  · have hv : Views (do ScheduleTable.setSchedules (← ScheduleController.getAllSchedulesinDate julianDate group)) :=
      .bind (views_getAllSchedulesinDate _ _) views_setSchedules
    have hl := hv.looks hw.sound h
    exact hw.besides (.of_looks hl) (hl.sound hw.sound)

theorem inRange_updateScheduleScrean (win : AdminWindow) (grp : Option ℕ) : InRange (win.updateScheduleScrean grp) := by
  refine .bind (.of_views (.bind bounded_getAllTeachers fun _ => .pure _) (.bind views_getAllTeachers fun _ => .pure _))
    fun accs => .bind (.of_views (bounded_updateTable accs) (views_updateTable accs)) fun _ =>
      .bind (.of_views bounded_groupsTable views_groupsTable) fun _ =>
        .bind (.of_views (bounded_getLessonsTypes _) (views_getLessonsTypes _)) fun _ => ?_
  cases grp.or win.schGroupDB with
  | none => exact .pure _
  | some group =>
    refine Eq.mp (congrArg InRange (bind_assoc _ _ _)) ?_
    exact (inRange_fill _ _).bind fun _ => .pure _

theorem inRange_setAccToSchedule (win : AdminWindow) (acc : ℕ) : InRange (win.setAccToSchedule acc) :=
  .bind (.of_views (bounded_getAdditionalInfo acc) (views_getAdditionalInfo acc)) fun _ =>
    .bind (.of_views (bounded_cast _ _) (views_cast _ _)) fun _ =>
      .bind (.of_views (bounded_getAdditionalInfo acc) (views_getAdditionalInfo acc)) fun _ =>
        .bind (.of_views (bounded_cast _ _) (views_cast _ _)) fun _ =>
          .bind (.of_views (bounded_getLessonsTypes _) (views_getLessonsTypes _)) fun _ => inRange_updateScheduleScrean _ _

theorem inRange_deleteSchedule (win : AdminWindow) (acc : Option ℕ) : InRange (win.deleteSchedule acc) := by
  cases acc with
  | none => exact .pure _
  | some acc =>
    refine .bind (.of_views (bounded_fromDB acc) (views_fromDB acc)) fun b => .bind ?_ fun _ =>
      inRange_updateScheduleScrean win none
    exact Lib.Command.Safe.of_avoids (bounded_delete b.id) fun w r w' h hw => hw.deleted (run_delete hw.sound h)

theorem bounded_storeSchedule (date : QDate) (name : String) (para : Para) (group teacher : Option ℕ) :
    Bounded (storeSchedule date name para group teacher) :=
  .bind (bounded_newObj _) fun p => .bind (bounded_setRef _ p _) fun _ => .bind (bounded_setRef _ p _) fun _ => bounded_add p

/-- A drop on a row, or one that finds nothing chosen. -/
theorem addSchedule_inRange {win : AdminWindow} {str : String} {rowIndex : Int32} (hw : Ranged w)
    (hrow : win.Chosen w → 0 ≤ rowIndex.toInt ∧ rowIndex.toInt < 8) :
    run (win.addSchedule str rowIndex) w ≠ .error .outOfRange := by
  intro h
  rw [addSchedule_eq] at h
  rcases (run_bind_error_iff _).mp h with h | ⟨b, w₁, h₁, h⟩
  · exact bounded_usable _ w h
  · obtain rfl := run_usable h₁
    cases b with
    | false => cases h
    | true =>
      rcases (run_bind_error_iff _).mp h with h | ⟨b, w₂, h₂, h⟩
      · exact bounded_usable _ w h
      · obtain rfl := run_usable h₂
        cases b with
        | false => cases h
        | true =>
          have hc : win.Chosen w := ⟨(usable_eq_true h₁).2, (usable_eq_true h₂).2⟩
          rcases (run_bind_error_iff _).mp h with h | ⟨r, w₃, hstore, h⟩
          · exact bounded_storeSchedule _ _ _ _ _ w h
          · obtain ⟨hw₃, group, i, p, -, -, ha⟩ := lessonAdded_of_chosen hw.sound hc hstore
            exact (inRange_updateScheduleScrean win none w₃ (hw.added ha hw₃ (hrow hc))).1 h

/-! ### Students -/

theorem inRange_updateWindow (win : StudentWindow) : InRange win.updateWindow := by
  unfold StudentWindow.updateWindow
  cases win.acc with
  | none => exact .fault (by simp)
  | some acc =>
    exact .bind (.of_views (bounded_getAdditionalInfo acc) (views_getAdditionalInfo acc)) fun _ =>
      .bind (.of_views (bounded_castDeref _ _) (views_castDeref _ _)) fun stud =>
        .bind (.of_views (bounded_getStudentGroup stud) (views_getStudentGroup stud)) fun _ => inRange_fill _ _

theorem inRange_setAccAndFill (win : StudentWindow) (acc : ℕ) : InRange (win.setAccAndFill acc) := by
  refine .bind (inRange_updateWindow _) fun _ => .bind (.of_views (bounded_accountOf acc) (views_accountOf acc)) fun _ =>
    .bind (.of_views (bounded_getAdditionalInfo acc) (views_getAdditionalInfo acc)) fun _ =>
      .bind (.of_views (bounded_cast _ _) (views_cast _ _)) fun addInf? => ?_
  cases addInf? with
  | none => exact .pure _
  | some addInf =>
    refine .bind (.of_views (bounded_studentOf addInf) (views_studentOf addInf)) fun _ =>
      .bind (.of_views (bounded_getStudentGroup addInf) (views_getStudentGroup addInf)) fun grp? => ?_
    cases grp? with
    | none => exact .pure _
    | some grp => exact .bind (.of_views (bounded_groupOf grp) (views_groupOf grp)) fun _ => .pure _

theorem inRange_logIn (state : StartWindow.State) (wStud : StudentWindow) (login password : String) :
    InRange (StartWindow.logIn state wStud login password) := by
  have hexist : InRange (AccountsController.isAccountExist ⟨login, password⟩) :=
    .of_views (.bind (bounded_call (.findOne .accounts _)) fun _ => .pure _) (.still (still_isAccountExist _))
  cases state with
  | login =>
    refine .bind hexist fun b => ?_
    cases b with
    | false => exact .pure _
    | true =>
      have hfind : InRange (AccountsController.findFullAccount ⟨login, password⟩) :=
        .of_does (.bind (bounded_call (.findOne .accounts _)) fun d => .bind (bounded_value d) fun d =>
          .bind (bounded_construct _ d) fun p => .bind (bounded_pushBack p) fun _ => .pure _)
          (Action.Runs.does (a := .findFullAccount ⟨login, password⟩) rfl fun _ h => h.elim)
      refine .bind hfind fun fullAcc => .bind (.of_views (bounded_accountType fullAcc) (views_accountType fullAcc)) fun t => ?_
      cases t with
      | admin => exact .pure _
      | student => exact .bind (inRange_setAccAndFill wStud fullAcc) fun _ => .pure _
      | teacher => exact .bind (inRange_setAccAndFill wStud fullAcc) fun _ => .pure _
  | signup =>
    refine .bind hexist fun b => ?_
    cases b with
    | true => exact .pure _
    | false =>
      exact .bind (.of_does (bounded_newObj _) (does_new (.account login password .student))) fun ac =>
        .bind (.of_does (bounded_add ac) (does_add (by simp) (by simp) ac)) fun _ => .pure _

/-! ### Runs -/

namespace Ranged

/-- No screen of schedules leaves its array. -/
theorem not_overruns {h : Happening} {c : Client} (hc : Ranged c.world) (hg : h.FindsRow c) : ¬ h.Overruns c := by
  intro ho
  cases h with
  | updateWindow win => exact (inRange_updateWindow win _ hc).1 ho
  | event e =>
    cases e with
    | slot s =>
      obtain ⟨hs, ho⟩ := ho
      cases s with
      | setGroupSch grp => exact (inRange_updateScheduleScrean _ grp _ hc).1 ho
      | setAccToSchedule acc => exact (inRange_setAccToSchedule _ acc _ hc).1 ho
      | dataChanged date => exact (inRange_updateScheduleScrean _ none _ hc).1 ho
      | addSchedule str rowIndex => exact addSchedule_inRange hc hg ho
      | deleteSchedule acc => exact (inRange_deleteSchedule _ acc _ hc).1 ho
      | updateScheduleScrean => exact (inRange_updateScheduleScrean _ none _ hc).1 ho
      | _ => exact hs
    | logIn state login password date => exact (inRange_logIn state _ login password _ hc).1 ho
    | _ => exact ho

/-- One event keeps the range. -/
theorem step {h : Happening} {c c' : Client} (hc : Ranged c.world) (hg : h.FindsRow c) (hs : h.Step c c') :
    Ranged c'.world := by
  cases h with
  | updateWindow win =>
    obtain ⟨-, schedules, hrun⟩ := hs
    exact (inRange_updateWindow win _ hc).2 _ _ hrun
  | event e =>
    have he : ∀ a, e = .call a → ¬ a.writes .schedules := by
      rintro a rfl
      exact hg
    obtain ⟨hw', hm', hr⟩ := rescheduled_of_step hc.sound hc.mirrored he hs
    refine ⟨hw', hm', fun o d l hd hl => ?_⟩
    cases hr with
    | same hst => exact hc.rows o d l (hst ▸ hd) hl
    | deleted hst =>
      rw [hst] at hd
      split_ifs at hd
      exact hc.rows o d l hd hl
    | @added str rowIndex group p i w₁ he hch hgr hi ha hst =>
      subst he
      exact hc.rows_added ha (hg hch) (hst ▸ hd) hl

end Ranged

/-- After every run in which each drop finds a row, every stored schedule has the number of a row, and no screen of
schedules leaves its array next. -/
theorem rows_of_run {db : Database} {date : QDate} {hs : List Happening} {c : Client}
    (hdb : ∀ o d, db.get? .schedules o = some d → ∃ l, d.IsLesson l ∧ 0 ≤ l.para.toInt ∧ l.para.toInt < 8)
    (hr : Lib.Run Happening.Step Happening.FindsRow (Client.start db date) hs c) :
    StoredInRows c.world ∧ ∀ h : Happening, h.FindsRow c → ¬ h.Overruns c := by
  have h := hr.invariant (I := fun c => Ranged c.world) (Ranged.start hdb) fun _ _ _ hc hg hs => hc.step hg hs
  exact ⟨h.storedInRows, fun _ hg => h.not_overruns hg⟩

theorem run_of_events {guard : Happening → Client → Prop} {es : List Event} {c c' : Client}
    (h : Lib.Run Event.Step (fun e => guard (.event e)) c es c') : Lib.Run Happening.Step guard c (es.map .event) c' := by
  induction h with
  | nil => exact .nil
  | snoc _ hg hs ih =>
    rw [List.map_append]
    exact .snoc ih hg hs

/-- One schedule is dropped on the first row. -/
theorem rows_of_addSchedule : ∃ c : Client, (c.world.stored .schedules 3).isSome ∧ StoredInRows c.world ∧
    ∀ h : Happening, h.FindsRow c → ¬ h.Overruns c := by
  have hplay : (Client.play (chooseBoth ++ [.slot (.addSchedule "name" 0)]) (Client.start oneCurator someDay)).any
      (fun c => (c.world.stored .schedules 3).isSome) = true := by decide +kernel
  obtain ⟨c, hc, hs⟩ := Option.any_eq_true .. |>.mp hplay
  have hrows : ∀ e ∈ chooseBoth ++ [.slot (.addSchedule "name" 0)], ∀ c, Happening.FindsRow (.event e) c := by
    simp [chooseBoth, Happening.FindsRow, Action.writes]
  have hr : Lib.Run Event.Step (fun e => Happening.FindsRow (.event e)) (Client.start oneCurator someDay)
      (chooseBoth ++ [.slot (.addSchedule "name" 0)]) c :=
    ((Client.run_of_play hc).guarded hrows).mono fun e c h => h c
  have hdb : ∀ o d, oneCurator.get? .schedules o = some d → ∃ l : Lesson, d.IsLesson l ∧ 0 ≤ l.para.toInt ∧ l.para.toInt < 8 := by
    intro o d hd
    rw [get?_oneCurator] at hd
    cases hd
  exact ⟨c, hs, rows_of_run hdb (run_of_events hr)⟩

/-- The day after. -/
def nextDay : QDate := .fromJulianDay 2460001

/-- A schedule is dropped below the rows for a day that is chosen and not yet shown. It is stored, and showing the day
leaves the array. -/
theorem overruns_of_drop_below : ∃ hs c, (∀ o, oneCurator.get? .schedules o = none) ∧
    Lib.Run Happening.Step (fun h _ => h.OfRowAt) (Client.start oneCurator someDay) hs c ∧
      ¬ StoredInRows c.world ∧ ¬ ∀ h : Happening, h.OfRowAt → ¬ h.Overruns c := by
  have hplay : (Client.play (chooseBoth ++ [.input (.date nextDay), .slot (.addSchedule "name" (-1))])
      (Client.start oneCurator someDay)).any (fun c =>
        ((c.world.stored .schedules 3).bind fun d => d.get? "Para") = some (.int32 (-1)) ∧
          endsIn ((Slot.dataChanged nextDay).cmd c.win) c.world = some .outOfRange) = true := by decide +kernel
  obtain ⟨c, hc, hp⟩ := Option.any_eq_true .. |>.mp hplay
  obtain ⟨hpara, hrun⟩ := of_decide_eq_true hp
  obtain ⟨d, hd, hpara⟩ := Option.bind_eq_some_iff.mp hpara
  have hrows : ∀ e ∈ chooseBoth ++ [.input (.date nextDay), .slot (.addSchedule "name" (-1))],
      Happening.OfRowAt (.event e) := by
    simp [chooseBoth, Happening.OfRowAt, Action.writes]
  have hr := (Client.run_of_play hc).guarded hrows
  refine ⟨_, c, get?_oneCurator, run_of_events hr, fun hstored => ?_, fun hfree => ?_⟩
  · obtain ⟨n, hn, hpos, -⟩ := hstored 3 d hd
    rw [hpara, Option.some.injEq, Bson.int32.injEq] at hn
    subst hn
    exact absurd hpos (by decide)
  · apply hfree (.event (.slot (.dataChanged nextDay))) trivial
    exact ⟨trivial, run_of_endsIn hrun⟩

end Cbt
