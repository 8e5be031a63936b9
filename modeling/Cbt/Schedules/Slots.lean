import Cbt.Schedules.Lessons
import Cbt.Windows.Entries

/-! One class for each row of a day. `AddSchedule` checks that a group and a teacher
are chosen, and not that the row is free; `setSchedules` puts each schedule into the
cell of its number, over whatever was put there before. While schedules are added
to free rows only, no two stored ones share a cell and every one of a day is shown. -/

namespace Cbt

open Lib.Command (run_bind_iff run_pure_iff)

variable {w w' : World}

/-- No two stored schedules have the same date, group and number. -/
def SlotsUnique (w : World) : Prop :=
  ∀ o o' d d', w.stored .schedules o = some d → w.stored .schedules o' = some d' →
    d.get? "Date" = d'.get? "Date" → d.get? "Group" = d'.get? "Group" → d.get? "Para" = d'.get? "Para" → o = o'

/-- The row a schedule is shown in. -/
def Lib.Conf.Row (w : World) (p : ℕ) (n : Fin 8) : Prop :=
  ∃ c sched, w.heap.get p = some ⟨c, .schedule sched⟩ ∧ sched.paraNumber.toInt = n

/-- The schedules of a day and a group are found and shown, and each is the one held in its row, where it can be
picked. -/
def NoneHidden (w : World) : Prop :=
  ∀ julianDate group i, w.idOf group = some i → ∃ r w₁ schedules rows,
    run (ScheduleController.getAllSchedulesinDate julianDate (.to group)) w = .ok (r, w₁) ∧
      run (ScheduleTable.setSchedules r) w₁ = .ok (schedules, w₁) ∧
        run (ScheduleTable.updateTable schedules (List.finRange 8)) w₁ = .ok (rows, w₁) ∧
          ∀ p ∈ r, ∃ n, w₁.Row p n ∧ schedules n = some p ∧ (rows[n.val]?).map Prod.fst = some (some p)

/-! ### Showing -/

theorem Lib.Conf.Row.unique {p : ℕ} {m n : Fin 8} (hm : w.Row p m) (hn : w.Row p n) : m = n := by
  obtain ⟨c, sched, hp, hm⟩ := hm
  obtain ⟨c', sched', hp', hn⟩ := hn
  obtain ⟨-, hs⟩ := Obj.mk.inj (Option.some.inj (hp.symm.trans hp'))
  obtain rfl := Fields.schedule.inj hs
  exact Fin.ext (by omega)

/-- A schedule of a row goes into its cell, over what was there. -/
theorem run_place_cons {p : ℕ} {n : Fin 8} (hp : w.Row p n) (schedules : ScheduleTable.Schedules) (r : List ℕ) :
    run (ScheduleTable.place schedules (p :: r)) w =
      run (ScheduleTable.place (Function.update schedules n (some p)) r) w := by
  obtain ⟨c, sched, hp, hn⟩ := hp
  have hrange : 0 ≤ sched.paraNumber.toInt ∧ sched.paraNumber.toInt < 8 := by
    have := n.isLt
    omega
  have hcell : (⟨sched.paraNumber.toInt.toNat, by omega⟩ : Fin 8) = n := Fin.ext (by simp [hn])
  have hsched : Lib.Command.run Database.serve (scheduleOf p) w = .ok (sched, w) :=
    run_scheduleOf_iff.mpr ⟨⟨c, hp⟩, rfl⟩
  rw [ScheduleTable.place, run, Lib.Command.run_bind, hsched]
  dsimp only
  rw [dif_pos hrange, hcell]

/-- Schedules of rows of the table are put into cells. -/
theorem exists_place {r : List ℕ} (hrow : ∀ p ∈ r, ∃ n, w.Row p n) (schedules : ScheduleTable.Schedules) :
    ∃ schedules', run (ScheduleTable.place schedules r) w = .ok (schedules', w) ∧
      ∀ n p, schedules' n = some p → schedules n = some p ∨ p ∈ r := by
  induction r generalizing schedules with
  | nil => exact ⟨schedules, rfl, fun _ _ h => .inl h⟩
  | cons p r ih =>
    obtain ⟨n, hp⟩ := hrow p (by simp)
    obtain ⟨schedules', hrun, hsub⟩ := ih (fun q hq => hrow q (List.mem_cons_of_mem _ hq))
      (Function.update schedules n (some p))
    refine ⟨schedules', (run_place_cons hp schedules r).trans hrun, fun m q hq => ?_⟩
    rcases hsub m q hq with h | h
    · by_cases hmn : m = n
      · subst hmn
        rw [Function.update_self] at h
        exact .inr (Option.some.inj h ▸ List.mem_cons_self)
      · rw [Function.update_of_ne hmn] at h
        exact .inl h
    · exact .inr (List.mem_cons_of_mem _ h)

/-- Those of different rows are each in their own, and no cell of another row changes. -/
theorem cells_of_place {r : List ℕ} {schedules schedules' : ScheduleTable.Schedules} (hrow : ∀ p ∈ r, ∃ n, w.Row p n)
    (hne : r.Pairwise fun p q => ∀ n, w.Row p n → ¬ w.Row q n)
    (h : run (ScheduleTable.place schedules r) w = .ok (schedules', w')) :
    (∀ p ∈ r, ∀ n, w.Row p n → schedules' n = some p) ∧ ∀ n, (∀ p ∈ r, ¬ w.Row p n) → schedules' n = schedules n := by
  induction r generalizing schedules with
  | nil =>
    obtain ⟨rfl, -⟩ := (run_pure_iff _).mp h
    simp
  | cons p r ih =>
    obtain ⟨hfirst, hrest⟩ := List.pairwise_cons.mp hne
    obtain ⟨n, hp⟩ := hrow p (by simp)
    rw [run_place_cons hp] at h
    obtain ⟨hin, hout⟩ := ih (fun q hq => hrow q (List.mem_cons_of_mem _ hq)) hrest h
    refine ⟨List.forall_mem_cons.mpr ⟨fun m hm => ?_, hin⟩, fun m hm => ?_⟩
    · obtain rfl := hm.unique hp
      rw [hout m fun q hq => hfirst q hq m hm, Function.update_self]
    · have hmn : m ≠ n := by
        rintro rfl
        exact hm p (by simp) hp
      rw [hout m fun q hq => hm q (List.mem_cons_of_mem _ hq), Function.update_of_ne hmn]

/-- The rows of the table show the cells. -/
theorem exists_updateTable {schedules : ScheduleTable.Schedules} (hs : ∀ n p, schedules n = some p → ∃ m, w.Row p m)
    (is : List (Fin 8)) : ∃ rows, run (ScheduleTable.updateTable schedules is) w = .ok (rows, w) ∧
      rows.map Prod.fst = is.map schedules := by
  induction is with
  | nil => exact ⟨[], rfl, rfl⟩
  | cons i is ih =>
    obtain ⟨rows, hrun, hrows⟩ := ih
    cases hi : schedules i with
    | none =>
      refine ⟨(none, "") :: rows, ?_, by simp [hi, hrows]⟩
      simp only [ScheduleTable.updateTable, hi, run_bind_iff, run_pure_iff]
      exact ⟨rows, w, hrun, rfl, rfl⟩
    | some p =>
      obtain ⟨m, c, sched, hp, -⟩ := hs i p hi
      refine ⟨(some p, sched.name) :: rows, ?_, by simp [hi, hrows]⟩
      simp only [ScheduleTable.updateTable, hi, run_bind_iff, run_pure_iff, run_scheduleOf_iff]
      exact ⟨sched, w, ⟨⟨c, hp⟩, rfl⟩, rows, w, hrun, rfl, rfl⟩

/-- A list of schedules of rows of the table is shown. -/
theorem exists_setSchedules {r : List ℕ} (hrow : ∀ p ∈ r, ∃ n, w.Row p n) : ∃ schedules rows,
    run (ScheduleTable.place (fun _ => none) r) w = .ok (schedules, w) ∧
      run (ScheduleTable.setSchedules r) w = .ok (schedules, w) ∧
        run (ScheduleTable.updateTable schedules (List.finRange 8)) w = .ok (rows, w) ∧
          rows.map Prod.fst = (List.finRange 8).map schedules := by
  obtain ⟨schedules, hplace, hsub⟩ := exists_place hrow fun _ => none
  have hcells : ∀ n p, schedules n = some p → ∃ m, w.Row p m := by
    intro n p hp
    rcases hsub n p hp with h | h
    · cases h
    · exact hrow p h
  obtain ⟨rows, htable, hrows⟩ := exists_updateTable hcells (List.finRange 8)
  refine ⟨schedules, rows, hplace, ?_, htable, hrows⟩
  simp only [ScheduleTable.setSchedules, run_bind_iff, run_pure_iff]
  exact ⟨schedules, w, hplace, rows, w, htable, rfl, rfl⟩

/-- Those of different rows are each shown in their own. -/
theorem exists_setSchedules_of_pairwise {r : List ℕ} (hrow : ∀ p ∈ r, ∃ n, w.Row p n)
    (hne : r.Pairwise fun p q => ∀ n, w.Row p n → ¬ w.Row q n) : ∃ schedules rows,
      run (ScheduleTable.setSchedules r) w = .ok (schedules, w) ∧
        run (ScheduleTable.updateTable schedules (List.finRange 8)) w = .ok (rows, w) ∧
          ∀ p ∈ r, ∃ n, w.Row p n ∧ schedules n = some p ∧ (rows[n.val]?).map Prod.fst = some (some p) := by
  obtain ⟨schedules, rows, hplace, hset, htable, hrows⟩ := exists_setSchedules hrow
  obtain ⟨hin, -⟩ := cells_of_place hrow hne hplace
  refine ⟨schedules, rows, hset, htable, fun p hp => ?_⟩
  obtain ⟨n, hn⟩ := hrow p hp
  refine ⟨n, hn, hin p hp n hn, ?_⟩
  rw [← List.getElem?_map, hrows, List.getElem?_map]
  simp [hin p hp n hn]

/-- Each object a query finds is of a stored class of the day and the group, and in the row of that. -/
theorem entry_of_query {julianDate : Int32} {group : ℕ} {i : Oid} {r : List ℕ} {w₁ : World} (hw : Sound w)
    (hm : Mirrored w) (hg : w.idOf group = some i)
    (hrun : run (ScheduleController.getAllSchedulesinDate julianDate (.to group)) w = .ok (r, w₁)) {p : ℕ} (hpr : p ∈ r) :
    ∃ o d l, w₁.idOf p = some o ∧ w.stored .schedules o = some d ∧ d.IsLesson l ∧ l.On julianDate i ∧
      ∀ n : Fin 8, w₁.Row p n ↔ l.para.toInt = n := by
  have hp := picked_of_query hw hm hg hrun
  obtain ⟨b, x, hget, -, hst, hx⟩ := (Besides.mirrored hp.besides hm).entry p (hp.entry p hpr)
  have ho := Lib.Conf.idOf_of_get hget
  obtain ⟨d, l, hd, hdl, hon⟩ := (hp.ids b.id).mp (ho ▸ List.mem_map_of_mem hpr)
  rw [Besides.stored hp.besides] at hst
  obtain rfl := Option.some.inj (hd.symm.trans hst)
  have hbare := hx l hdl
  cases x <;> simp only [Fields.bare, reduceCtorEq, Fields.schedule.injEq] at hbare
  rename_i sched
  have hpara : sched.paraNumber = l.para := (Schedule.mk.inj hbare).2.2.1
  refine ⟨b.id, _, l, ho, hd, hdl, hon, fun n => ⟨?_, fun hn => ⟨_, _, hget, hpara ▸ hn⟩⟩⟩
  rintro ⟨c, sched', hget', hn⟩
  obtain ⟨-, hs⟩ := Obj.mk.inj (Option.some.inj (hget.symm.trans hget'))
  obtain rfl := Fields.schedule.inj hs
  rw [← hpara, hn]

/-- While every stored class is of a row of the table, so is each object a query finds. -/
theorem row_of_query {julianDate : Int32} {group : ℕ} {i : Oid} {r : List ℕ} {w₁ : World} (hw : Sound w)
    (hm : Mirrored w) (hg : w.idOf group = some i)
    (hrows : ∀ o d l, w.stored .schedules o = some d → d.IsLesson l → 0 ≤ l.para.toInt ∧ l.para.toInt < 8)
    (hrun : run (ScheduleController.getAllSchedulesinDate julianDate (.to group)) w = .ok (r, w₁)) :
    ∀ p ∈ r, ∃ n, w₁.Row p n := by
  intro p hpr
  obtain ⟨o, d, l, -, hd, hl, -, hn⟩ := entry_of_query hw hm hg hrun hpr
  have hrange := hrows o d l hd hl
  exact ⟨⟨l.para.toInt.toNat, by omega⟩, (hn _).mpr (Int.toNat_of_nonneg hrange.1).symm⟩

/-! ### The invariant -/

/-- The stored schedules are classes of rows of the table, one for each date, group and row. -/
structure Slotted (w : World) : Prop where
  rows : ∀ o d l, w.stored .schedules o = some d → d.IsLesson l → 0 ≤ l.para.toInt ∧ l.para.toInt < 8
  unique : ∀ o o' d d' l l', w.stored .schedules o = some d → d.IsLesson l → w.stored .schedules o' = some d' →
    d'.IsLesson l' → l.date = l'.date → l.group = l'.group → l.para = l'.para → o = o'

namespace Slotted

theorem congr (h : Slotted w) (hs : w'.stored .schedules = w.stored .schedules) : Slotted w' :=
  ⟨hs ▸ h.rows, hs ▸ h.unique⟩

/-- Fewer schedules share no more cells. -/
theorem deleted (h : Slotted w) {oid : Oid}
    (hs : ∀ o, w'.stored .schedules o = if o = oid then none else w.stored .schedules o) : Slotted w' := by
  have hold : ∀ {o d}, w'.stored .schedules o = some d → w.stored .schedules o = some d := by
    intro o d hd
    rw [hs] at hd
    split_ifs at hd
    exact hd
  exact ⟨fun o d l hd => h.rows o d l (hold hd),
    fun o o' d d' l l' hd hl hd' => h.unique o o' d d' l l' (hold hd) hl (hold hd')⟩

/-- A class that is added to a free row of its date and group. -/
theorem added (h : Slotted w) {l : Lesson} {p : ℕ} (ha : LessonAdded w l p w') (hl : 0 ≤ l.para.toInt ∧ l.para.toInt < 8)
    (hfree : ∀ o d l', w.stored .schedules o = some d → d.IsLesson l' →
      ¬ (l'.date = l.date ∧ l'.group = l.group ∧ l'.para = l.para)) : Slotted w' := by
  obtain ⟨⟨d₀, b, hd₀, hs, -, -⟩, -, -⟩ := ha
  have hcases : ∀ {o d l'}, w'.stored .schedules o = some d → d.IsLesson l' →
      o = w.env.nextOid ∧ l' = l ∨ w.stored .schedules o = some d := by
    intro o d l' hd hl'
    rw [hs] at hd
    split_ifs at hd with ho
    · obtain rfl := Option.some.inj hd
      exact .inl ⟨ho.2, hl'.unique hd₀⟩
    · exact .inr hd
  refine ⟨fun o d l' hd hl' => ?_, fun o o' d d' l₁ l₂ hd h₁ hd' h₂ hdate hgroup hpara => ?_⟩
  · rcases hcases hd hl' with ⟨-, rfl⟩ | hold
    · exact hl
    · exact h.rows o d l' hold hl'
  · rcases hcases hd h₁ with ⟨rfl, rfl⟩ | hold <;> rcases hcases hd' h₂ with ⟨rfl, rfl⟩ | hold'
    · rfl
    · exact absurd ⟨hdate.symm, hgroup.symm, hpara.symm⟩ (hfree o' d' l₂ hold' h₂)
    · exact absurd ⟨hdate, hgroup, hpara⟩ (hfree o d l₁ hold h₁)
    · exact h.unique o o' d d' l₁ l₂ hold h₁ hold' h₂ hdate hgroup hpara

theorem slotsUnique (h : Slotted w) (hm : Mirrored w) : SlotsUnique w := by
  intro o o' d d' hd hd' hdate hgroup hpara
  obtain ⟨l, hl⟩ := hm.lessons o d hd
  obtain ⟨l', hl'⟩ := hm.lessons o' d' hd'
  rw [hl.date, hl'.date, Option.some.injEq, Bson.int64.injEq] at hdate
  rw [hl.group, hl'.group, Option.some.injEq, Bson.oid.injEq] at hgroup
  rw [hl.para, hl'.para, Option.some.injEq, Bson.int32.injEq] at hpara
  refine h.unique o o' d d' l l' hd hl hd' hl' ?_ hgroup hpara
  rw [← QDate.fromJulianDay_toJulianDay l.date, hdate, QDate.fromJulianDay_toJulianDay]

/-- What a query finds is shown. -/
theorem noneHidden (h : Slotted w) (hw : Sound w) (hm : Mirrored w) : NoneHidden w := by
  intro julianDate group i hg
  obtain ⟨r, w₁, hrun⟩ := exists_query hw hm hg julianDate
  have hp := picked_of_query hw hm hg hrun
  have hrow := row_of_query hw hm hg h.rows hrun
  have hne : r.Pairwise fun p q => ∀ n, w₁.Row p n → ¬ w₁.Row q n := by
    refine (List.pairwise_map.mp hp.nodup).imp_of_mem fun {p q} hpr hqr hid n hpn hqn => hid ?_
    obtain ⟨o, d, l, hpo, hd, hl, hon, hn⟩ := entry_of_query hw hm hg hrun hpr
    obtain ⟨o', d', l', hqo, hd', hl', hon', hn'⟩ := entry_of_query hw hm hg hrun hqr
    have hpara : l.para = l'.para := Int32.toInt_inj.mp (((hn n).mp hpn).trans ((hn' n).mp hqn).symm)
    have hday : l.date.toJulianDay = l'.date.toJulianDay := Int64.toInt_inj.mp (hon.1.trans hon'.1.symm)
    have hdate : l.date = l'.date := by
      rw [← QDate.fromJulianDay_toJulianDay l.date, hday, QDate.fromJulianDay_toJulianDay]
    rw [hpo, hqo, h.unique o o' d d' l l' hd hl hd' hl' hdate (hon.2.trans hon'.2.symm) hpara]
  obtain ⟨schedules, rows, hset, htable, hall⟩ := exists_setSchedules_of_pairwise hrow hne
  exact ⟨r, w₁, schedules, rows, hrun, hset, htable, hall⟩

end Slotted

/-! ### Events -/

/-- Schedules are added and deleted by the window's slots only, and added to rows of its table. -/
def Event.InTable : Event → Prop
  | .slot (.addSchedule _ rowIndex) => 0 ≤ rowIndex.toInt ∧ rowIndex.toInt < 8
  | .call a => ¬ a.writes .schedules
  | _ => True

/-- A group and a teacher that exist are chosen for the schedules. -/
def AdminWindow.Chosen (win : AdminWindow) (w : World) : Prop :=
  (∃ group, win.schGroupDB = some group ∧ w.Alive group) ∧ ∃ teacher, win.teacher = some teacher ∧ w.Alive teacher

/-- No stored schedule has the day the window adds to, the group it shows and the row. -/
def Client.RowFree (c : Client) (rowIndex : Int32) : Prop :=
  ∀ group i, c.win.schGroupDB = some group → c.world.idOf group = some i → ∀ o d, c.world.stored .schedules o = some d →
    ¬ (d.get? "Date" = some (.int64 c.win.selectedDate.toJulianDay) ∧ d.get? "Group" = some (.oid i) ∧
      d.get? "Para" = some (.int32 rowIndex))

/-- Moreover what is added, when both are chosen, goes to a free row. -/
def Event.OnFreeRow (e : Event) (c : Client) : Prop :=
  e.InTable ∧ ∀ str rowIndex, e = .slot (.addSchedule str rowIndex) → c.win.Chosen c.world → c.RowFree rowIndex

/-- What carries the uniqueness over runs. -/
structure TableInvariant (w : World) : Prop where
  sound : Sound w
  mirrored : Mirrored w
  slotted : Slotted w

theorem usable_eq_true {p : Option ℕ} (h : run (AdminWindow.usable p) w = .ok (true, w')) :
    w = w' ∧ ∃ q, p = some q ∧ w.Alive q := by
  cases p with
  | none => simp [AdminWindow.usable] at h
  | some q =>
    simp only [AdminWindow.usable, run_bind_iff, run_fromDB_iff, run_pure_iff] at h
    obtain ⟨b, _, ⟨hb, rfl⟩, he, rfl⟩ := h
    obtain ⟨x, hx⟩ := header_eq_ok.mp hb
    exact ⟨rfl, q, rfl, b, x, hx, he⟩

theorem run_usable {p : Option ℕ} {r : Bool} (h : run (AdminWindow.usable p) w = .ok (r, w')) : w = w' := by
  cases p with
  | none => exact ((run_pure_iff _).mp h).2
  | some q =>
    simp only [AdminWindow.usable, run_bind_iff, run_fromDB_iff, run_pure_iff] at h
    obtain ⟨b, _, ⟨-, rfl⟩, -, rfl⟩ := h
    rfl

/-- The group a new schedule was given is one. -/
theorem is_group_of_storeSchedule {date : QDate} {name : String} {para : Para} {g : ℕ} {teacher r : Option ℕ}
    (hg : w.Alive g) (h : run (storeSchedule date name para (some g) teacher) w = .ok (r, w')) :
    ∃ i, w.Is g i .groupDB := by
  simp only [storeSchedule, run_bind_iff, run_newObj_iff] at h
  obtain ⟨_, _, ⟨rfl, rfl⟩, _, w₂, h₂, -⟩ := h
  obtain ⟨b, y, hget, hb⟩ := hg
  have hp : (w.push ⟨none, .schedule { date, name, paraNumber := para }⟩).heap.get w.heap.next =
      some ⟨none, .schedule { date, name, paraNumber := para }⟩ := Lib.Heap.get_push_next _ _
  obtain ⟨-, y', hy, ha⟩ := get_setRef hp h₂
  have hget' : (w.push ⟨none, .schedule { date, name, paraNumber := para }⟩).heap.get g = some ⟨some b, y⟩ :=
    Lib.Heap.get_push_of_some _ hget
  rw [hget', Option.map_some, Option.some.injEq] at hy
  obtain rfl : y = y' := hy
  cases y <;> simp [RefField.admits] at ha
  exact ⟨b.id, b, _, hget, hb, rfl, rfl⟩

/-- What `AddSchedule` does when a group and a teacher are chosen. -/
def AdminWindow.storeAndShow (win : AdminWindow) (str : String) (rowIndex : Int32) : Cmd AdminWindow := do
  let _ ← storeSchedule win.selectedDate str rowIndex win.schGroupDB win.teacher
  win.updateScheduleScrean none

theorem addSchedule_eq (win : AdminWindow) (str : String) (rowIndex : Int32) : win.addSchedule str rowIndex = (do
    if (← AdminWindow.usable win.schGroupDB) = false then return win
    else if (← AdminWindow.usable win.teacher) = false then return win
    else win.storeAndShow str rowIndex) := by
  simp only [AdminWindow.addSchedule, AdminWindow.storeAndShow, storeSchedule, bind_assoc]

/-- What follows when the class is stored. -/
theorem lessonAdded_of_chosen {win : AdminWindow} {str : String} {rowIndex : Int32} {r : Option ℕ} (hw : Sound w)
    (hc : win.Chosen w)
    (h : run (storeSchedule win.selectedDate str rowIndex win.schGroupDB win.teacher) w = .ok (r, w')) :
    Sound w' ∧ ∃ group i p, win.schGroupDB = some group ∧ w.Is group i .groupDB ∧
      LessonAdded w ⟨win.selectedDate, str, rowIndex, i⟩ p w' := by
  obtain ⟨⟨group, hgr, hga⟩, teacher, hte, -⟩ := hc
  rw [hgr, hte] at h
  obtain ⟨i, hi⟩ := is_group_of_storeSchedule hga h
  obtain ⟨p, -, ha⟩ := lessonAdded hw hi h
  exact ⟨sound_storeSchedule hw h, group, i, p, hgr, hi, ha⟩

/-- `AddSchedule` does nothing, or a group and a teacher are chosen and a class is stored and shown. -/
theorem run_addSchedule {win win' : AdminWindow} {str : String} {rowIndex : Int32}
    (h : run (win.addSchedule str rowIndex) w = .ok (win', w')) :
    w' = w ∨ win.Chosen w ∧ run (win.storeAndShow str rowIndex) w = .ok (win', w') := by
  rw [addSchedule_eq] at h
  obtain ⟨b, w₁, h₁, h⟩ := (run_bind_iff _).mp h
  obtain rfl := run_usable h₁
  cases b with
  | false => exact .inl ((run_pure_iff _).mp h).2.symm
  | true =>
    obtain ⟨b, w₂, h₂, h⟩ := (run_bind_iff _).mp h
    obtain rfl := run_usable h₂
    cases b with
    | false => exact .inl ((run_pure_iff _).mp h).2.symm
    | true => exact .inr ⟨⟨(usable_eq_true h₁).2, (usable_eq_true h₂).2⟩, h⟩

/-- What becomes of the stored schedules when only the window's slots write to them. -/
inductive Rescheduled (e : Event) (c : Client) (w' : World) : Prop
  | same (hs : w'.stored .schedules = c.world.stored .schedules)
  | deleted {oid : Oid} (hs : ∀ o, w'.stored .schedules o = if o = oid then none else c.world.stored .schedules o)
  | added {str : String} {rowIndex : Int32} {group p : ℕ} {i : Oid} {w₁ : World}
      (he : e = .slot (.addSchedule str rowIndex)) (hc : c.win.Chosen c.world) (hg : c.win.schGroupDB = some group)
      (hi : c.world.Is group i .groupDB) (ha : LessonAdded c.world ⟨c.win.selectedDate, str, rowIndex, i⟩ p w₁)
      (hs : w'.stored .schedules = w₁.stored .schedules)

/-- The caches stay sound and go on mirroring the stored schedules, whatever event becomes of them. -/
theorem rescheduled_of_step {e : Event} {c c' : Client} (hw : Sound c.world) (hm : Mirrored c.world)
    (he : ∀ a, e = .call a → ¬ a.writes .schedules) (hs : e.Step c c') :
    Sound c'.world ∧ Mirrored c'.world ∧ Rescheduled e c c'.world := by
  have hrest : ¬ e.writes .schedules → Sound c'.world ∧ Mirrored c'.world ∧ Rescheduled e c c'.world := by
    intro hn
    rcases acts_of_step hs with ha | ⟨date, -, rfl⟩
    · have hb := Acts.besides ha hw hn
      exact ⟨ha.sound hw, Besides.mirrored hb hm, .same (Besides.stored hb)⟩
    · exact ⟨sound_start _, mirrored_start hm.lessons, .same rfl⟩
  cases e with
  | slot s =>
    cases s with
    | addSchedule str rowIndex =>
      rcases run_addSchedule hs with h | ⟨hc, h⟩
      · rw [h]
        exact ⟨hw, hm, .same rfl⟩
      · obtain ⟨r, w₁, hstore, hshow⟩ := (run_bind_iff _).mp h
        obtain ⟨hw₁, group, i, p, hg, hi, ha⟩ := lessonAdded_of_chosen hw hc hstore
        have hl := (views_updateScheduleScrean c.win none).looks hw₁ hshow
        exact ⟨hl.sound hw₁, Besides.mirrored (.of_looks hl) (ha.mirrored hm),
          .added rfl hc hg hi ha (Besides.stored (.of_looks hl))⟩
    | deleteSchedule acc =>
      cases acc with
      | none =>
        obtain ⟨-, h⟩ := (run_pure_iff _).mp hs
        rw [← h]
        exact ⟨hw, hm, .same rfl⟩
      | some acc =>
        obtain ⟨b, _, hb, h⟩ := (run_bind_iff _).mp hs
        obtain ⟨-, rfl⟩ := run_fromDB_iff.mp hb
        obtain ⟨r, w₁, hdel, hrest⟩ := (run_bind_iff _).mp h
        have hd := run_delete hw hdel
        obtain ⟨hm₁, hs₁, -⟩ := hm.deleted hd
        have hl := (views_updateScheduleScrean c.win none).looks (hd.sound hw) hrest
        have hst : c'.world.stored .schedules = w₁.stored .schedules := Besides.stored (.of_looks hl)
        exact ⟨hl.sound (hd.sound hw), Besides.mirrored (.of_looks hl) hm₁, .deleted fun o => (congrFun hst o).trans (hs₁ o)⟩
    | _ => exact hrest (by simp [Event.writes, Slot.writes])
  | logIn state login password date => exact hrest (by cases state <;> simp [Event.writes])
  | call a => exact hrest (he a rfl)
  | _ => exact hrest (by simp [Event.writes])

/-- One event keeps the invariant. -/
theorem TableInvariant.step {e : Event} {c c' : Client} (h : TableInvariant c.world) (hg : e.OnFreeRow c)
    (hs : e.Step c c') : TableInvariant c'.world := by
  have he : ∀ a, e = .call a → ¬ a.writes .schedules := by
    rintro a rfl
    exact hg.1
  obtain ⟨hw', hm', hr⟩ := rescheduled_of_step h.sound h.mirrored he hs
  refine ⟨hw', hm', ?_⟩
  cases hr with
  | same hs => exact h.slotted.congr hs
  | deleted hs => exact h.slotted.deleted hs
  | @added str rowIndex group p i w₁ he hc hgr hi ha hst =>
    subst he
    refine (h.slotted.added ha hg.1 fun o d l' hd hl' => ?_).congr hst
    rintro ⟨hdate, hgroup, hpara⟩
    refine hg.2 str rowIndex rfl hc group i hgr hi.idOf o d hd ⟨?_, ?_, ?_⟩
    · rw [hl'.date, hdate]
    · rw [hl'.group, hgroup]
    · rw [hl'.para, hpara]

/-- After every run in which schedules are added to free rows only, each date and group has one schedule a row and none
is hidden. -/
theorem slots_of_run {db : Database} {date : QDate} {es : List Event} {c : Client}
    (hdb : ∀ o, db.get? .schedules o = none) (hr : Lib.Run Event.Step Event.OnFreeRow (Client.start db date) es c) :
    SlotsUnique c.world ∧ NoneHidden c.world := by
  have hstart : TableInvariant (Client.start db date).world := by
    refine ⟨sound_start db, mirrored_start fun o d hd => by simp [hdb o] at hd, ⟨fun o d l hd => ?_, fun o _ d _ _ _ hd => ?_⟩⟩
    all_goals
      have hn : (Client.start db date).world.stored .schedules o = none := hdb o
      simp [hn] at hd
  have h := hr.invariant (I := fun c => TableInvariant c.world) hstart fun _ _ _ h hg hs => h.step hg hs
  exact ⟨h.slotted.slotsUnique h.mirrored, h.slotted.noneHidden h.sound h.mirrored⟩

/-- A day. -/
def someDay : QDate := .fromJulianDay 2460000

/-- A group and a teacher are chosen for the schedules. -/
def chooseBoth : List Event :=
  [.call (.getFromDB .groups 2 .admin), .slot (.setGroupSch (some 0)), .slot (.setAccToSchedule 1)]

theorem get?_oneCurator (o : Oid) : oneCurator.get? .schedules o = none := by
  rw [oneCurator, Database.get?_insert, Database.get?_insert, Database.get?_insert]
  simp only [reduceCtorEq, false_and, if_false]
  rfl

/-- A check of the condition, for look-ups, choices and additions. -/
def Event.onFreeRow? (e : Event) (c : Client) : Bool :=
  match e with
  | .slot (.addSchedule _ rowIndex) => 0 ≤ rowIndex.toInt ∧ rowIndex.toInt < 8 ∧
    c.win.schGroupDB.all fun group => (c.world.idOf group).all fun i => (c.world.env.coll .schedules).docs.all fun d =>
      ¬ (d.get? "Date" = some (.int64 c.win.selectedDate.toJulianDay) ∧ d.get? "Group" = some (.oid i) ∧
        d.get? "Para" = some (.int32 rowIndex))
  | .slot (.setGroupSch _) => true
  | .slot (.setAccToSchedule _) => true
  | .call (.getFromDB _ _ _) => true
  | _ => false

theorem Event.onFreeRow_of_onFreeRow? {e : Event} {c : Client} (h : e.onFreeRow? c = true) : e.OnFreeRow c := by
  cases e with
  | slot s =>
    cases s with
    | addSchedule str rowIndex =>
      obtain ⟨hnonneg, hlt, hall⟩ := of_decide_eq_true h
      refine ⟨⟨hnonneg, hlt⟩, ?_⟩
      rintro _ _ ⟨⟩ _ group i hgroup hi o d hd
      rw [hgroup, Option.all_some, hi, Option.all_some] at hall
      exact of_decide_eq_true (List.all_eq_true.mp hall d (mem_docs_of_stored hd))
    | setGroupSch => exact ⟨trivial, by simp⟩
    | setAccToSchedule => exact ⟨trivial, by simp⟩
    | _ => simp [Event.onFreeRow?] at h
  | call a =>
    cases a with
    | getFromDB => exact ⟨fun hw => hw, by simp⟩
    | _ => simp [Event.onFreeRow?] at h
  | _ => simp [Event.onFreeRow?] at h

/-- Two schedules of one day and group are added to different rows. -/
theorem slots_of_addSchedule : ∃ c : Client, (c.world.env.coll .schedules).docs.map (fun d => d.get? "Para") =
    [some (.int32 0), some (.int32 5)] ∧ SlotsUnique c.world ∧ NoneHidden c.world := by
  have hplay : (Lib.playChecked Event.next? Event.onFreeRow? (chooseBoth ++ [.slot (.addSchedule "first" 0),
      .slot (.addSchedule "second" 5)]) (Client.start oneCurator someDay)).any (fun c =>
        (c.world.env.coll .schedules).docs.map (fun d => d.get? "Para") = [some (.int32 0), some (.int32 5)]) = true := by
    decide +kernel
  obtain ⟨c, hc, hp⟩ := Option.any_eq_true .. |>.mp hplay
  exact ⟨c, of_decide_eq_true hp,
    slots_of_run get?_oneCurator (.of_playChecked Event.step_of_next? Event.onFreeRow_of_onFreeRow? hc)⟩

/-- Two schedules are added to one row. -/
theorem not_slots_of_every_run : ¬ ∀ db date es c, (∀ o, db.get? .schedules o = none) →
    Lib.Run Event.Step (fun e _ => e.InTable) (Client.start db date) es c → SlotsUnique c.world ∧ NoneHidden c.world := by
  intro h
  have hplay : (Client.play (chooseBoth ++ [.slot (.addSchedule "first" 0), .slot (.addSchedule "second" 0)])
      (Client.start oneCurator someDay)).any (fun c => (c.world.stored .schedules 3).isSome ∧
        (c.world.stored .schedules 3).map (fun d => (d.get? "Date", d.get? "Group", d.get? "Para")) =
          (c.world.stored .schedules 4).map fun d => (d.get? "Date", d.get? "Group", d.get? "Para")) = true := by
    decide +kernel
  obtain ⟨c, hc, hd⟩ := Option.any_eq_true .. |>.mp hplay
  obtain ⟨hsome, he⟩ := of_decide_eq_true hd
  obtain ⟨d, hd₃⟩ := Option.isSome_iff_exists.mp hsome
  rw [hd₃, Option.map_some] at he
  obtain ⟨d', hd₄, he⟩ := Option.map_eq_some_iff.mp he.symm
  simp only [Prod.mk.injEq] at he
  have hrows : ∀ e ∈ chooseBoth ++ [.slot (.addSchedule "first" 0), .slot (.addSchedule "second" 0)],
      Event.InTable e := by
    simp [chooseBoth, Event.InTable, Action.writes]
  obtain ⟨hunique, -⟩ := h _ _ _ c get?_oneCurator ((Client.run_of_play hc).guarded hrows)
  exact absurd (hunique 3 4 d d' hd₃ hd₄ he.1.symm he.2.1.symm he.2.2.symm) (by decide)

end Cbt
