import Cbt.Accounts.Logins
import Cbt.Schedules.Slots
import Cbt.Startup.Opening

/-! What a user sees who starts the program and logs in. The student's window can show a
day when the student's info names a stored group and every schedule that is stored for
the day and the group has a row; a teacher's account opens the same window, which cannot
be filled for it. -/

namespace Cbt

open Lib.Command (Returns run_bind_iff run_pure_iff)

variable {κ : Names} {db : Database} {w w' : World} {d : Doc} {i : Oid} {p acc grp : ℕ} {day : Int32}

/-- A stored schedule that is found for a day and a group. -/
def Database.Taught (db : Database) (day : Int32) (i : Oid) (d : Doc) : Prop :=
  (∃ j, db.get? .schedules j = some d) ∧ Doc.fits [("Date", .int32 day), ("Group", .oid i)] d = true

/-- The number of the schedule is one of a row. -/
def Doc.HasRow (d : Doc) : Prop := ∃ n : Int32, d.get? "Para" = some (.int32 n) ∧ 0 ≤ n.toInt ∧ n.toInt < 8

/-- The day can be shown to the user with the account: a student of a stored group, whose schedules all have rows. -/
def Database.Shown (db : Database) (d : Doc) (day : Int32) : Prop :=
  d.infoClass = some .studentInfoDB ∧ ∃ d' i, db.follow d .additionalInfo = some d' ∧ d'.get? "Group" = some (.oid i) ∧
    (∃ g, db.get? .groups i = some g) ∧ ∀ sched, db.Taught day i sched → sched.HasRow

/-- The account that is found for the login and the password is an administrator's, or a student's who can be shown the days. -/
def Database.Serves (db : Database) (l : LogPass) (dates : List QDate) : Prop :=
  ∀ d, (db.coll .accounts).docs.find? (Doc.fits l.toDoc) = some d →
    d.infoClass = none ∨ ∀ date ∈ dates, db.Shown d date.toJulianDay.toInt32

namespace Reader

/-! ### Schedules of a day -/

theorem row_iff (h : Reader db w) (hp : w.Holds p .scheduleDB d) : (∃ n, w.Row p n) ↔ d.HasRow := by
  obtain ⟨b, x, hg, -, hx, rfl⟩ := hp
  obtain ⟨-, -, -, hf⟩ := h.known hg
  cases x with
  | schedule s =>
    simp only [Fields.cls, DBClass.fields, exceptBind_eq_ok, exceptPure_eq_ok] at hf
    obtain ⟨_, -, _, -, n, hn, hs⟩ := hf
    have hpara : s.paraNumber = n := congrArg Schedule.paraNumber (Fields.schedule.inj hs)
    rw [Doc.getInt32_eq_ok, ← hpara] at hn
    constructor
    · rintro ⟨m, c, s', hg', hm⟩
      obtain ⟨-, hs'⟩ := Obj.mk.inj (Option.some.inj (hg.symm.trans hg'))
      obtain rfl := Fields.schedule.inj hs'
      exact ⟨s.paraNumber, hn, by omega, by omega⟩
    · rintro ⟨m, hm, h₀, h₈⟩
      obtain rfl := Bson.int32.inj (Option.some.inj (hn.symm.trans hm))
      exact ⟨⟨s.paraNumber.toInt.toNat, by omega⟩, _, s, hg, (Int.toNat_of_nonneg h₀).symm⟩
  | account | group | additionalInfo | student | teacher => cases hx

/-- The schedules of a day and a group are found, each of them. -/
theorem replies_query (h : Reader db w) (hn : Named κ db) (hg : w.idOf grp = some i) (day : Int32) :
    Replies db (ScheduleController.getAllSchedulesinDate day (.to grp)) w fun r w' =>
      (∀ p ∈ r, ∃ d, db.Taught day i d ∧ w'.Holds p .scheduleDB d) ∧
        ∀ d, db.Taught day i d → ∃ p ∈ r, w'.Holds p .scheduleDB d := by
  have hlisted := listed_filter w .schedules (Doc.fits [("Date", .int32 day), ("Group", .oid i)])
  have htaught : ∀ d, d ∈ (w.env.coll .schedules).docs.filter (Doc.fits [("Date", .int32 day), ("Group", .oid i)]) ↔
      db.Taught day i d := by
    intro d
    rw [List.mem_filter, h.env, Collection.mem_docs]
    rfl
  obtain ⟨r, w', hr⟩ := exists_collect true h.sound hlisted fun d hd => h.exists_ofDoc hn (by decide) (List.mem_filter.mp hd).1
  have hrun := (run_getAllSchedulesinDate_iff hg).mpr hr
  obtain ⟨h', hall, hin⟩ := h.collected (by decide) hlisted hr
  have hlooks := (views_getAllSchedulesinDate _ _).looks h.sound hrun
  refine .of_run hrun ⟨h', hlooks, fun p hp => ?_, fun d hd => hin d ((htaught d).mpr hd)⟩
  obtain ⟨d, hd, hp'⟩ := hall p hp
  exact ⟨d, (htaught d).mp hd, hp'⟩

end Reader

/-- What was put into the table has a row. -/
theorem rows_of_place {r : List ℕ} {schedules schedules' : ScheduleTable.Schedules}
    (h : run (ScheduleTable.place schedules r) w = .ok (schedules', w')) : ∀ p ∈ r, ∃ n, w.Row p n := by
  induction r generalizing schedules with
  | nil => simp
  | cons p r ih =>
    obtain ⟨s, w₁, h₁, hr⟩ := (run_bind_iff _).mp h
    obtain ⟨⟨c, hp⟩, rfl⟩ := run_scheduleOf_iff.mp h₁
    dsimp only at hr
    split_ifs at hr with hn
    · refine List.forall_mem_cons.mpr ⟨⟨⟨s.paraNumber.toInt.toNat, by omega⟩, c, s, hp, (Int.toNat_of_nonneg hn.1).symm⟩, ih hr⟩
    · simp at hr

namespace Reader

theorem hasRow_of_setSchedules {r : List ℕ} {schedules : ScheduleTable.Schedules} (h : Reader db w)
    (hr : run (ScheduleTable.setSchedules r) w = .ok (schedules, w')) (hp : p ∈ r) (hd : w.Holds p .scheduleDB d) : d.HasRow := by
  obtain ⟨schedules', w₁, h₁, -⟩ := (run_bind_iff _).mp hr
  exact (h.row_iff hd).mp (rows_of_place h₁ p hp)

theorem replies_setSchedules {r : List ℕ} (h : Reader db w) (hp : ∀ p ∈ r, ∃ d, d.HasRow ∧ w.Holds p .scheduleDB d) :
    Replies db (ScheduleTable.setSchedules r) w fun _ _ => True := by
  obtain ⟨schedules, rows, -, hr, -⟩ := exists_setSchedules fun p hp' => by
    obtain ⟨d, hd, hh⟩ := hp p hp'
    exact (h.row_iff hh).mpr hd
  exact .of_run hr ⟨h, .refl, trivial⟩

/-- The object of the group an info names has the id that is named. -/
theorem idOf_group (h : Reader db w) {d' : Doc} {r : Option ℕ} (hr : Option.Rel (w.Shows .groups) r (db.follow d' .group)) :
    (r = none ∧ db.follow d' .group = none) ∨
      ∃ grp i, r = some grp ∧ d'.get? "Group" = some (.oid i) ∧ (∃ g, db.get? .groups i = some g) ∧ w.idOf grp = some i := by
  cases hf : db.follow d' .group with
  | none =>
    rw [hf] at hr
    cases hr
    exact .inl ⟨rfl, rfl⟩
  | some g =>
    rw [hf] at hr
    cases hr with
    | @some grp _ hs =>
      obtain ⟨v, hv, hg⟩ := Option.bind_eq_some_iff.mp hf
      obtain ⟨e, he, hv⟩ := Option.bind_eq_some_iff.mp hv
      obtain rfl := Bson.oid?_eq_some.mp hv
      obtain ⟨c, hc, b, x, hgrp, -, rfl, rfl⟩ := hs
      have hst := (h.known hgrp).2.1
      rw [← h.stored] at hst
      have hid := (stored_id hst).symm.trans (stored_id (w := w) (by rw [h.stored]; exact hg))
      refine .inr ⟨grp, v, rfl, he, ⟨_, hg⟩, ?_⟩
      rw [Lib.Conf.idOf_of_get hgrp, Bson.oid.inj (Option.some.inj hid)]

/-! ### The student's window -/

variable {date : QDate}

/-- A day that the window shows to the user of a listed account can be shown. -/
theorem shown_of_updateWindow {r : ScheduleTable.Schedules} (h : Reader db w) (hn : Named κ db) (hacc : w.Holds acc .accountDB d)
    (hd : db.Listable d) (hc : d.infoClass ≠ none) (hr : run (StudentWindow.updateWindow ⟨some acc, date⟩) w = .ok (r, w')) :
    db.Shown d date.toJulianDay.toInt32 := by
  obtain ⟨c, hc⟩ := Option.ne_none_iff_exists'.mp hc
  obtain ⟨info, w₁, h₁, hr₁⟩ := (run_bind_iff _).mp hr
  obtain ⟨hw₁, hl₁, -, hinfo⟩ := (h.replies_info hn hacc hd).post_of_run h₁
  obtain ⟨q, w₂, h₂, hr₂⟩ := (run_bind_iff _).mp hr₁
  obtain ⟨rfl, ⟨o, ho, hst⟩, rfl⟩ := run_castDeref_iff.mp h₂
  obtain ⟨q', d', hq, hf, hh⟩ := hinfo c hc
  obtain rfl := Option.some.inj hq
  obtain rfl : c = .studentInfoDB := by
    obtain ⟨b, x, hg, -, rfl, -⟩ := hh
    obtain rfl := Option.some.inj (ho.symm.trans hg)
    cases x <;> first | rfl | cases hst
  obtain ⟨grp?, w₃, h₃, hr₃⟩ := (run_bind_iff _).mp hr₂
  obtain ⟨hw₃, hl₃, hrel⟩ := (hw₁.replies_group hn hh).post_of_run h₃
  obtain ⟨scheds, w₄, h₄, hr₄⟩ := (run_bind_iff _).mp hr₃
  obtain ⟨rfl, -⟩ | ⟨grp, i, rfl, hgrp, hstored, hid⟩ := hw₃.idOf_group hrel
  · simp [ScheduleController.getAllSchedulesinDate, run_bind_iff, Pointer.ofOption] at h₄
  · obtain ⟨hw₄, hl₄, hall, hin⟩ := (hw₃.replies_query hn hid _).post_of_run h₄
    refine ⟨hc, d', i, hf, hgrp, hstored, fun sched hs => ?_⟩
    obtain ⟨p, hp, hh⟩ := hin sched hs
    exact hw₄.hasRow_of_setSchedules hr₄ hp hh

/-- A day that can be shown is. -/
theorem replies_updateWindow (h : Reader db w) (hn : Named κ db) (hacc : w.Holds acc .accountDB d) (hd : db.Listable d)
    (hs : db.Shown d date.toJulianDay.toInt32) : Replies db (StudentWindow.updateWindow ⟨some acc, date⟩) w fun _ _ => True := by
  obtain ⟨hc, d', i, hf, hgrp, hstored, hrow⟩ := hs
  refine (h.replies_info hn hacc hd).bind fun info w₁ h₁ _ hinfo => ?_
  obtain ⟨q, d'', rfl, hf', hh⟩ := hinfo.2 _ hc
  obtain rfl := Option.some.inj (hf.symm.trans hf')
  obtain ⟨b, x, hg, hb, hx, hd'⟩ := id hh
  refine .seq (run_castDeref_iff.mpr ⟨rfl, ⟨_, hg, by cases x <;> first | rfl | cases hx⟩, rfl⟩) ?_
  refine (h₁.replies_group hn hh).bind fun grp? w₂ h₂ _ hrel => ?_
  obtain ⟨-, hnone⟩ | ⟨grp, j, rfl, hgrp', -, hid⟩ := h₂.idOf_group hrel
  · obtain ⟨g, hg⟩ := hstored
    simp only [Database.follow, hgrp, RefField.key, RefField.kind, Option.bind_some, Bson.oid?_oid, hg, reduceCtorEq] at hnone
  · obtain rfl := Bson.oid.inj (Option.some.inj (hgrp.symm.trans hgrp'))
    refine (h₂.replies_query hn hid _).bind fun r w₃ h₃ _ hall => h₃.replies_setSchedules fun p hp => ?_
    obtain ⟨sched, ht, hh⟩ := hall.1 p hp
    exact ⟨sched, hrow sched ht, hh⟩

/-- The window is shown for an account whose day was. -/
theorem replies_setAccAndFill (h : Reader db w) (hn : Named κ db) (hacc : w.Holds acc .accountDB d) (hd : db.Listable d)
    (hs : db.Shown d date.toJulianDay.toInt32) (win : StudentWindow) (hwin : win.date = date) :
    Replies db (win.setAccAndFill acc) w fun win' _ => win' = ⟨some acc, date⟩ := by
  subst hwin
  refine (h.replies_updateWindow hn hacc hd hs).bind fun _ w₁ h₁ hl₁ _ => ?_
  obtain ⟨b, a, ha, -⟩ := h₁.account (hacc.mono hl₁)
  refine .seq (run_accountOf_iff.mpr ⟨⟨_, ha⟩, rfl⟩) ?_
  refine (h₁.replies_info hn (hacc.mono hl₁) hd).bind fun info w₂ h₂ _ hinfo => ?_
  obtain ⟨q, d', rfl, -, hh⟩ := hinfo.2 _ hs.1
  obtain ⟨b', x, hg, hb', hx, hd'⟩ := id hh
  refine .seq (run_cast_iff.mpr ⟨rfl, .inr ⟨q, _, rfl, hg, rfl⟩⟩) ?_
  cases x with
  | student s =>
    refine .seq (run_studentOf_iff.mpr ⟨⟨_, hg⟩, rfl⟩) ?_
    refine (h₂.replies_group hn hh).bind fun grp? w₃ h₃ _ hrel => ?_
    generalize db.follow d' .group = g? at hrel
    cases hrel with
    | none => exact Replies.pure h₃ rfl
    | some hs =>
      obtain ⟨c, hc, b₃, y, hg₃, -, rfl, -⟩ := hs
      cases y with
      | group g => exact .seq (run_groupOf_iff.mpr ⟨⟨_, hg₃⟩, rfl⟩) (Replies.pure h₃ rfl)
      | account | additionalInfo | student | teacher | schedule => cases hc
  | account | group | additionalInfo | teacher | schedule => cases hx

/-! ### The user's account -/

/-- The object a log-in makes of a stored account. -/
theorem found (h : Reader db w) {l : LogPass} {r : ℕ} (hr : run (AccountsController.findFullAccount l) w = .ok (r, w')) :
    ∃ d, w.account? l = some d ∧ Reader db w' ∧ w'.Holds r .accountDB d := by
  obtain ⟨d, o, hd, ho, rfl, rfl⟩ := run_findFullAccount_iff.mp hr
  obtain ⟨x, i, hx, hi, rfl⟩ := ofDoc_eq_ok.mp ho
  obtain ⟨j, hj⟩ := Collection.mem_docs.mp (List.mem_of_find?_eq_some hd)
  have hj' : w.stored .accounts j = some d := hj
  obtain rfl := Bson.oid.inj (Option.some.inj (hi.symm.trans (stored_id hj')))
  obtain ⟨a, rfl⟩ := exists_account_of_kind (Fields.kind_of_dbClass (k := .accounts) (DBClass.cls_fields hx))
  rw [h.stored] at hj'
  have hload : Reader db (w.load .accounts ⟨some { doc := d, id := i }, .account a⟩) := h.load hj' rfl (by simp [Fields.cls]) hx
  exact ⟨d, hd, hload, _, _, Lib.Heap.get_push_next _ _, rfl, rfl, rfl⟩

theorem exists_found (h : Reader db w) (hn : Named κ db) {l : LogPass} (hd : w.account? l = some d) :
    ∃ r w', run (AccountsController.findFullAccount l) w = .ok (r, w') := by
  obtain ⟨o, ho⟩ := h.exists_ofDoc (k := .accounts) hn (by decide) (List.mem_of_find?_eq_some hd)
  exact ⟨_, _, run_findFullAccount_iff.mpr ⟨d, o, hd, ho, rfl, rfl⟩⟩

/-! ### The days a student looks at -/

/-- The days that the window went on to show can be shown. -/
theorem shown_of_setdates {dates : List QDate} {win' : StudentWindow} (h : Reader db w) (hn : Named κ db)
    (hacc : w.Holds acc .accountDB d) (hd : db.Listable d) (hc : d.infoClass ≠ none)
    (hr : run (StudentWindow.setdates ⟨some acc, date⟩ dates) w = .ok (win', w')) :
    ∀ date ∈ dates, db.Shown d date.toJulianDay.toInt32 := by
  induction dates generalizing w date with
  | nil => simp
  | cons next dates ih =>
    obtain ⟨win₁, w₁, h₁, hr₁⟩ := (run_bind_iff _).mp hr
    obtain ⟨r, w₂, h₂, h₃⟩ := (run_bind_iff _).mp h₁
    obtain ⟨rfl, rfl⟩ := (run_pure_iff _).mp h₃
    have hs := h.shown_of_updateWindow hn hacc hd hc h₂
    obtain ⟨hw₂, hl, -⟩ := (h.replies_updateWindow hn hacc hd hs).post_of_run h₂
    exact List.forall_mem_cons.mpr ⟨hs, ih hw₂ (hacc.mono hl) hr₁⟩

theorem replies_setdates {dates : List QDate} (date : QDate) (h : Reader db w) (hn : Named κ db) (hacc : w.Holds acc .accountDB d)
    (hd : db.Listable d) (hs : ∀ date ∈ dates, db.Shown d date.toJulianDay.toInt32) :
    Replies db (StudentWindow.setdates ⟨some acc, date⟩ dates) w fun _ _ => True := by
  induction dates generalizing w date with
  | nil => exact Replies.pure h trivial
  | cons next dates ih =>
    rw [List.forall_mem_cons] at hs
    have hset : Replies db (StudentWindow.setdate ⟨some acc, date⟩ next) w fun win' _ => win' = ⟨some acc, next⟩ :=
      (h.replies_updateWindow hn hacc hd hs.1).bind fun _ _ h₁ _ _ => Replies.pure h₁ rfl
    refine hset.bind fun win' w₁ h₁ hl hw => ?_
    subst hw
    exact ih next h₁ (hacc.mono hl) hs.2

/-! ### The whole session -/

variable {l : LogPass} {today : QDate} {dates : List QDate} {win : StartWindow}

theorem serves_of_visit {o : StartWindow.Opened} (h : Reader db w) (hn : Named κ db) (hp : db.Presentable)
    (hs : win.state = .login) (hwin : win.wStud = { date := today })
    (hr : run (win.visit l.login l.password dates) w = .ok (o, w')) : db.Serves l (today :: dates) := by
  intro d hd
  rw [or_iff_not_imp_left]
  intro hc
  obtain ⟨o₁, w₁, h₁, hr₁⟩ := (run_bind_iff _).mp hr
  rw [StartWindow.ready, hs, hwin] at h₁
  obtain ⟨b, w₂, h₂, hr₂⟩ := (run_bind_iff _).mp h₁
  obtain ⟨hb, rfl⟩ := run_isAccountExist_iff.mp h₂
  have hd' : w.account? l = some d := by rw [Lib.Conf.account?, h.env]; exact hd
  rw [show (⟨l.login, l.password⟩ : LogPass) = l from rfl, hd'] at hb
  subst hb
  simp only [Option.isSome_some, Bool.true_eq_false, if_false] at hr₂
  obtain ⟨acc, w₃, h₃, hr₃⟩ := (run_bind_iff _).mp hr₂
  obtain ⟨e, he, hw₃, hacc⟩ := h.found h₃
  obtain rfl := Option.some.inj (hd'.symm.trans he)
  obtain ⟨j, hj⟩ := Collection.mem_docs.mp (List.mem_of_find?_eq_some hd)
  have hl := hp j d hj
  obtain ⟨t, w₄, h₄, hr₄⟩ := (run_bind_iff _).mp hr₃
  obtain ⟨rfl, ht⟩ := hw₃.infoClass_of_type hacc h₄
  have hstud : ∃ wStud, run (StudentWindow.setAccAndFill { date := today } acc) w₄ = .ok (wStud, w₁) ∧ o₁ = .student wStud := by
    cases t with
    | student | teacher =>
      obtain ⟨wStud, w₅, h₅, hr₅⟩ := (run_bind_iff _).mp hr₄
      obtain ⟨rfl, rfl⟩ := (run_pure_iff _).mp hr₅
      exact ⟨wStud, h₅, rfl⟩
    | admin => exact absurd ht hc
  obtain ⟨wStud, h₅, rfl⟩ := hstud
  obtain ⟨r, w₆, h₆, -⟩ := (run_bind_iff _).mp h₅
  have hshown := hw₃.shown_of_updateWindow hn hacc hl hc h₆
  obtain ⟨hw₁, hlooks, rfl⟩ := (hw₃.replies_setAccAndFill hn hacc hl hshown { date := today } rfl).post_of_run h₅
  obtain ⟨wStud, w₇, h₇, -⟩ := (run_bind_iff _).mp hr₁
  exact List.forall_mem_cons.mpr ⟨hshown, hw₁.shown_of_setdates hn (hacc.mono hlooks) hl hc h₇⟩

/-- A log-in that finds the account of a student who can be shown the day opens the student's window with the account. -/
theorem run_logIn (h : Reader db w) (hn : Named κ db) (hd : w.account? l = some d) (hl : db.Listable d)
    (hs : d.infoClass = none ∨ db.Shown d today.toJulianDay.toInt32) :
    ∃ o w', run (StartWindow.logIn .login { date := today } l.login l.password) w = .ok (o, w') ∧ Reader db w' ∧
      (d.infoClass = none ∧ o = .admin ∨
        d.infoClass ≠ none ∧ ∃ acc, o = .student ⟨some acc, today⟩ ∧ w'.Holds acc .accountDB d) := by
  obtain ⟨acc, w₁, hr₁⟩ := h.exists_found hn hd
  obtain ⟨e, he, h₁, hacc⟩ := h.found hr₁
  obtain rfl := Option.some.inj (hd.symm.trans he)
  obtain ⟨b, a, ha, hc⟩ := h₁.account hacc
  have hexist := run_isAccountExist_iff.mpr ⟨show (w.account? l).isSome = true by rw [hd]; rfl, rfl⟩
  have htype := run_accountType_iff.mpr ⟨⟨_, a, ha, rfl⟩, rfl⟩
  have hrun {o : StartWindow.Opened} {w' : World}
      (hr : ∀ t, a.accountType = t → (t = .admin → o = .admin ∧ w' = w₁) ∧ (t ≠ .admin →
        ∃ win, run (StudentWindow.setAccAndFill { date := today } acc) w₁ = .ok (win, w') ∧ o = .student win)) :
      run (StartWindow.logIn .login { date := today } l.login l.password) w = .ok (o, w') := by
    refine (run_bind_iff _).mpr ⟨true, w, hexist, ?_⟩
    simp only [Bool.true_eq_false, if_false]
    refine (run_bind_iff _).mpr ⟨acc, w₁, hr₁, (run_bind_iff _).mpr ⟨a.accountType, w₁, htype, ?_⟩⟩
    cases ht : a.accountType with
    | admin =>
      obtain ⟨rfl, rfl⟩ := (hr _ ht).1 rfl
      rfl
    | student | teacher =>
      obtain ⟨win, hwin, rfl⟩ := (hr _ ht).2 (by simp)
      exact (run_bind_iff _).mpr ⟨win, w', hwin, rfl⟩
  by_cases hc' : d.infoClass = none
  · refine ⟨.admin, w₁, hrun fun t ht => ⟨fun _ => ⟨rfl, rfl⟩, fun hne => ?_⟩, h₁, .inl ⟨hc', rfl⟩⟩
    subst ht
    rw [hc] at hc'
    cases ht : a.accountType with
    | admin => exact absurd ht hne
    | student | teacher => simp [ht, InfosController.classOf] at hc'
  · obtain ⟨win, w₂, hr₂, h₂, hlooks, rfl⟩ := h₁.replies_setAccAndFill hn hacc hl (hs.resolve_left hc') { date := today } rfl
    refine ⟨.student ⟨some acc, today⟩, w₂, hrun fun t ht => ⟨fun hadmin => ?_, fun _ => ⟨_, hr₂, rfl⟩⟩, h₂,
      .inr ⟨hc', acc, rfl, hacc.mono hlooks⟩⟩
    rw [hadmin] at ht
    rw [hc, ht] at hc'
    exact absurd rfl hc'

theorem exists_visit (win : StartWindow) (h : Reader db w) (hn : Named κ db) (hp : db.Presentable) (hs : win.state = .login)
    (hwin : win.wStud = { date := today }) (hserves : db.Serves l (today :: dates)) :
    ∃ o w', run (win.visit l.login l.password dates) w = .ok (o, w') := by
  have hready : win.ready l.login l.password = StartWindow.logIn .login { date := today } l.login l.password := by
    rw [StartWindow.ready, hs, hwin]
  unfold StartWindow.visit
  rw [hready]
  cases hd : w.account? l with
  | none =>
    have hexist := run_isAccountExist_iff.mpr ⟨show (w.account? l).isSome = false by rw [hd]; rfl, rfl⟩
    have hnone : run (StartWindow.logIn .login { date := today } l.login l.password) w = .ok (.none, w) :=
      (run_bind_iff _).mpr ⟨false, w, hexist, rfl⟩
    exact ⟨_, w, (run_bind_iff _).mpr ⟨_, w, hnone, rfl⟩⟩
  | some d =>
    have hfind : (db.coll .accounts).docs.find? (Doc.fits l.toDoc) = some d := by rw [← h.env]; exact hd
    obtain ⟨j, hj⟩ := Collection.mem_docs.mp (List.mem_of_find?_eq_some hfind)
    have hl := hp j d hj
    have hshown := hserves d hfind
    obtain ⟨o, w₁, hr, h₁, ⟨hc, rfl⟩ | ⟨hc, acc, rfl, hacc⟩⟩ :=
      h.run_logIn hn hd hl (hshown.imp id fun hall => hall today (by simp))
    · exact ⟨_, w₁, (run_bind_iff _).mpr ⟨_, w₁, hr, rfl⟩⟩
    · have hdates := (List.forall_mem_cons.mp (hshown.resolve_left hc)).2
      obtain ⟨wStud, w₂, hr₂, -⟩ := h₁.replies_setdates today hn hacc hl hdates
      exact ⟨_, w₂, (run_bind_iff _).mpr ⟨_, w₁, hr, (run_bind_iff _).mpr ⟨wStud, w₂, hr₂, rfl⟩⟩⟩

end Reader

/-- Whatever the clients did, a user's whole session with another process, from its start to the last day that is looked
at, completes exactly if every stored account can be listed and the account that is found for the login and the password,
if any, is an administrator's, or a student's who can be shown today and the days. -/
theorem session_iff {ι : Type} [DecidableEq ι] {date : ι → QDate} {as : List (ι × Move)} {s : Clients ι} (hdb : Named κ db)
    (hr : Clients.Run (fun _ => True) (Clients.start db date) as s) (today : QDate) (login password : String)
    (dates : List QDate) : (∃ o w', run (StartWindow.session today login password dates) (World.start s.env) = .ok (o, w')) ↔
      s.env.Presentable ∧ s.env.Serves { login, password } (today :: dates) := by
  obtain ⟨κ', -, h⟩ := (Clients.named_start hdb date).run hr
  have hstart (hp : s.env.Presentable) : ∃ admin w₁, run (AdminWindow.construct today) (World.start s.env) = .ok (admin, w₁) ∧
      Reader s.env w₁ := by
    obtain ⟨admin, w₁, hrun, h₁, -⟩ := (reader_start s.env).replies_construct h.env hp today
    exact ⟨admin, w₁, hrun, h₁⟩
  constructor
  · rintro ⟨o, w', hrun⟩
    obtain ⟨win, w₁, h₁, h₂⟩ := (run_bind_iff _).mp hrun
    have hp := presentable_of_construct h₁
    obtain ⟨admin, w₂, h₃, hw₂⟩ := hstart hp
    obtain ⟨admin', w₃, h₄, hwin⟩ := (run_bind_iff _).mp h₁
    obtain ⟨rfl, rfl⟩ := Prod.mk.inj (Except.ok.inj (h₃.symm.trans h₄))
    obtain ⟨rfl, rfl⟩ := (run_pure_iff _).mp hwin
    exact ⟨hp, hw₂.serves_of_visit (l := { login, password }) h.env hp rfl rfl h₂⟩
  · rintro ⟨hp, hs⟩
    obtain ⟨admin, w₁, h₁, hw₁⟩ := hstart hp
    obtain ⟨o, w₂, h₂⟩ := hw₁.exists_visit { wStud := .construct today, wAdmin := admin } h.env hp rfl rfl hs
    exact ⟨o, w₂, (run_bind_iff _).mpr ⟨_, w₁, (run_bind_iff _).mpr ⟨admin, w₁, h₁, rfl⟩, h₂⟩⟩

/-- After the account and the group are stored, the student joins the group, which is taught one lesson. -/
def oneLesson : List (Bool × Move) :=
  twoStore ++ [(false, .begin (.call (.getFromDB .groups 1 .admin))), (false, .next), (false, .begin (.call (.addStudent 4 3))),
    (false, .next), (false, .next), (false, .next), (false, .next),
    (false, .begin (.call (.new (.schedule (.fromJulianDay 0) "lesson" 2)))), (false, .begin (.call (.setRef .group 5 (some 4)))),
    (false, .begin (.call (.setRef .teacher 5 none))), (false, .begin (.call (.add .schedules 5 .admin))), (false, .next),
    (false, .next)]

/-- The student logs in on the day of the lesson and looks at the next day. -/
theorem session_iff_two : ∃ s : Clients Bool, (s.env.get? .schedules 3).isSome ∧ s.env.Presentable ∧
    s.env.Serves { login := "login", password := "password" } [.fromJulianDay 0, .fromJulianDay 1] := by
  have hplay : (Clients.play oneLesson twoStart).any (fun s => (s.env.get? .schedules 3).isSome ∧
      (run (StartWindow.session (.fromJulianDay 0) "login" "password" [.fromJulianDay 1]) (World.start s.env)).toBool) = true := by
    decide +kernel
  obtain ⟨s, hs, hp⟩ := Option.any_eq_true .. |>.mp hplay
  obtain ⟨h₀, h₁⟩ := of_decide_eq_true hp
  cases hrun : run (StartWindow.session (.fromJulianDay 0) "login" "password" [.fromJulianDay 1]) (World.start s.env) with
  | error e => simp [hrun, Except.toBool] at h₁
  | ok r =>
    exact ⟨s, h₀, (session_iff named_empty (Clients.run_of_play (fun _ _ _ _ => trivial) hs) _ _ _ _).mp ⟨r.1, r.2, hrun⟩⟩

end Cbt
