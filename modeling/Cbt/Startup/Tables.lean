import Cbt.Startup.Listing

/-! The tables, filled by a process that has only read. A table of accounts can be filled
exactly when each account it lists can be: a student's and a teacher's needs an info, of
the class of the account's type. The other tables can always be filled. -/

namespace Cbt

open Lib.Command (Returns run_bind_iff run_pure_iff)

variable {κ : Names} {db : Database} {w w' : World} {k : Kind} {c : DBClass} {d : Doc} {p acc : ℕ}

/-- The class of the info that the account of a document has, if its type has one. -/
def Doc.infoClass (d : Doc) : Option DBClass :=
  match DBClass.accountDB.fields d with
  | .ok (.account a) => InfosController.classOf a.accountType
  | _ => none

/-- The account of a document can be listed: its info is stored, if its type has one. -/
def Database.Listable (db : Database) (d : Doc) : Prop :=
  ∀ c, d.infoClass = some c → ∃ d' x, db.follow d .additionalInfo = some d' ∧ c.fields d' = .ok x

/-- Every stored account can be listed. -/
def Database.Presentable (db : Database) : Prop := ∀ i d, db.get? .accounts i = some d → db.Listable d

/-- Accounts that can be listed. -/
def Database.Roll (db : Database) (w : World) (accs : List ℕ) : Prop := ∀ p ∈ accs, ∃ d, w.Holds p .accountDB d ∧ db.Listable d

theorem Database.Roll.mono {accs : List ℕ} (h : db.Roll w accs) (hl : Looks w w') : db.Roll w' accs := by
  intro p hp
  obtain ⟨d, hd, hd'⟩ := h p hp
  exact ⟨d, hd.mono hl, hd'⟩

theorem Database.Roll.tail {accs : List ℕ} (h : db.Roll w (acc :: accs)) : db.Roll w accs :=
  fun p hp => h p (List.mem_cons_of_mem _ hp)

theorem Named.shown {i : Oid} {d : Doc} {c c' : DBClass} {x y : Fields} (h : Named κ db) (hd : db.get? k i = some d)
    (hc : c ≠ .additionalInfoDB) (hk : c.kind = k) (hx : c.fields d = .ok x) (hc' : c' ≠ .additionalInfoDB)
    (hk' : c'.kind = k) (hy : c'.fields d = .ok y) : c = c' := by
  subst hk
  have h₁ := h.cls hd hc hx
  exact Option.some.inj (h₁.symm.trans (h.cls (hk'.symm ▸ hd) hc' hy))

/-- A reference to a document of a collection of one class leads to one that can be read. -/
theorem Named.fields_follow {d' : Doc} {f : RefField} (h : Named κ db) (hf : f.kind ≠ .infos) (hd : db.follow d f = some d') :
    ∃ x, f.kind.dbClass.fields d' = .ok x := by
  obtain ⟨i, -, hi⟩ := Option.bind_eq_some_iff.mp hd
  exact h.fields hf hi

namespace Reader

theorem stored_of_holds (h : Reader db w) (hp : w.Holds p c d) :
    c ≠ .additionalInfoDB ∧ ∃ i x, db.get? c.kind i = some d ∧ c.fields d = .ok x := by
  obtain ⟨b, x, hp, -, rfl, rfl⟩ := hp
  obtain ⟨-, hs, hc, hf⟩ := h.known hp
  exact ⟨hc, b.id, _, Fields.kind_cls x ▸ hs, hf⟩

/-- The object of a stored document that can be read as of a class is of the class. -/
theorem holds_of_shows (h : Reader db w) (hn : Named κ db) (hp : w.Shows k p d) (hk : c.kind = k) (hc : c ≠ .additionalInfoDB)
    {x : Fields} (hx : c.fields d = .ok x) : w.Holds p c d := by
  obtain ⟨c', rfl, hp⟩ := hp
  obtain ⟨hc', i, y, hd, hy⟩ := h.stored_of_holds hp
  obtain rfl := hn.shown hd hc hk hx hc' rfl hy
  exact hp

theorem account (h : Reader db w) (hp : w.Holds acc .accountDB d) :
    ∃ b a, w.heap.get acc = some ⟨some b, .account a⟩ ∧ d.infoClass = InfosController.classOf a.accountType := by
  obtain ⟨b, x, hg, -, hx, rfl⟩ := hp
  obtain ⟨-, -, -, hf⟩ := h.known hg
  cases x with
  | account a =>
    refine ⟨b, a, hg, ?_⟩
    rw [Doc.infoClass, show DBClass.accountDB.fields b.doc = .ok (Fields.account a).bare from hf]
    rfl
  | group | additionalInfo | student | teacher | schedule => cases hx

/-- The type that is read of an account says which info it has. -/
theorem infoClass_of_type (h : Reader db w) (hp : w.Holds acc .accountDB d) {t : AccountType}
    (hr : run (accountType acc) w = .ok (t, w')) : w' = w ∧ d.infoClass = InfosController.classOf t := by
  obtain ⟨⟨c, a, ha, rfl⟩, rfl⟩ := run_accountType_iff.mp hr
  obtain ⟨b, a', ha', hc⟩ := h.account hp
  obtain ⟨-, rfl⟩ := Obj.mk.inj (Option.some.inj (ha.symm.trans ha')) |>.imp id Fields.account.inj
  exact ⟨rfl, hc⟩

/-! ### The info of an account -/

theorem classOf_info (h : Reader db w) (hp : w.Holds acc .accountDB d) :
    Getter.classOf .getAdditionalInfo w acc = d.infoClass := by
  obtain ⟨b, a, ha, hc⟩ := h.account hp
  rw [Getter.classOf_account ha, hc]

theorem field_info : Getter.field .getAdditionalInfo ∈ DBClass.accountDB.refs := by decide

theorem got_info (h : Reader db w) (hp : w.Holds acc .accountDB d) {r : Option ℕ}
    (hr : run (AccountDB.getAdditionalInfo acc) w = .ok (r, w')) :
    Reader db w' ∧ Looks w w' ∧ (d.infoClass ≠ none → Option.Rel (w'.Shows .infos) r (db.follow d .additionalInfo)) := by
  obtain ⟨b, a, ha, -⟩ := h.account hp
  have hg := (run_getter_iff (g := .getAdditionalInfo) h.sound ha field_info).mp hr
  refine ⟨h.got (by decide) hg, (views_getAdditionalInfo acc).looks h.sound hr, fun hne => ?_⟩
  rcases h.got_follow (by decide) (fun _ => rfl) hp hg with ⟨hn, -⟩ | hrel
  · exact absurd ((h.classOf_info hp).symm.trans hn) hne
  · exact hrel

/-- The info of an account that can be listed is found. -/
theorem replies_info (h : Reader db w) (hn : Named κ db) (hp : w.Holds acc .accountDB d) (hd : db.Listable d) :
    Replies db (AccountDB.getAdditionalInfo acc) w fun r w' => (∀ q, r = some q → ∃ d', w'.Shows .infos q d') ∧
      ∀ c, d.infoClass = some c → ∃ q d', r = some q ∧ db.follow d .additionalInfo = some d' ∧ w'.Holds q c d' := by
  have hkey : ∃ v, d.get? (Getter.key .getAdditionalInfo) = some v := by
    obtain ⟨hc, i, x, hd, hx⟩ := h.stored_of_holds hp
    exact (hn.isOf hd hc hx).refs .additionalInfo field_info
  have hrep := h.replies_get (g := .getAdditionalInfo) (by decide) (fun _ => rfl) hp (by decide) field_info hkey ?_
  · refine hrep.mono fun r w' h' hl hr => ⟨fun q hq => ?_, fun c hc => ?_⟩
    · subst hq
      rcases hr with ⟨-, hr⟩ | hr
      · cases hr
      · generalize db.follow d (Getter.field .getAdditionalInfo) = o at hr
        cases hr with
        | some hs => exact ⟨_, hs⟩
    · obtain ⟨d', x, hf, hx⟩ := hd c hc
      rcases hr with ⟨hr, -⟩ | hr
      · cases ((h.classOf_info hp).symm.trans hr).symm.trans hc
      · rw [show db.follow d (Getter.field .getAdditionalInfo) = some d' from hf] at hr
        obtain ⟨hne, hk⟩ := classes .getAdditionalInfo w acc c ((h.classOf_info hp).trans hc)
        cases hr with
        | some hs => exact ⟨_, d', rfl, hf, h'.holds_of_shows hn hs hk hne hx⟩
  · intro c d' hc hf
    obtain ⟨d'', x, hf', hx⟩ := hd c ((h.classOf_info hp).symm.trans hc)
    obtain rfl := Option.some.inj (hf.symm.trans hf')
    exact ⟨x, hx⟩

/-! ### Tables of accounts -/

/-- An account that was listed can be. -/
theorem listable_of_row (h : Reader db w) (hp : w.Holds acc .accountDB d) {r : AccountRow}
    (hr : run (AccountsTable.row acc) w = .ok (r, w')) : Reader db w' ∧ Looks w w' ∧ db.Listable d := by
  have hlooks := (views_row acc).looks h.sound hr
  obtain ⟨info, w₁, h₁, hr₁⟩ := (run_bind_iff _).mp hr
  obtain ⟨hw₁, hl, hinfo⟩ := h.got_info hp h₁
  obtain ⟨t, w₂, h₂, hr₂⟩ := (run_bind_iff _).mp hr₁
  obtain ⟨rfl, ht⟩ := hw₁.infoClass_of_type (hp.mono hl) h₂
  have hcast {isClass : Fields → Bool} {c : DBClass} {q : ℕ} {w₃ : World} (hc : d.infoClass = some c)
      (hcls : ∀ x : Fields, isClass x = true → x.cls = c) (hq : run (castDeref isClass info) w₂ = .ok (q, w₃)) :
      w₃ = w₂ ∧ db.Listable d := by
    obtain ⟨rfl, ⟨o, ho, hic⟩, rfl⟩ := run_castDeref_iff.mp hq
    refine ⟨rfl, fun c' hc' => ?_⟩
    obtain rfl := Option.some.inj (hc.symm.trans hc')
    have hrel := hinfo (by simp [hc])
    generalize db.follow d .additionalInfo = d? at hrel
    cases hrel with
    | @some _ d' hs =>
      obtain ⟨c', -, hq⟩ := hs
      obtain ⟨x, hx⟩ := hw₁.fields hq
      obtain ⟨b, y, hg, -, rfl, -⟩ := hq
      obtain rfl := Option.some.inj (ho.symm.trans hg)
      exact ⟨d', x, rfl, hcls y hic ▸ hx⟩
  cases t with
  | student =>
    obtain ⟨q, w₃, h₃, hr₃⟩ := (run_bind_iff _).mp hr₂
    obtain ⟨rfl, hd⟩ := hcast ht (fun x hx => by cases x <;> first | rfl | cases hx) h₃
    obtain ⟨s, w₄, h₄, hr₄⟩ := (run_bind_iff _).mp hr₃
    obtain ⟨-, rfl⟩ := run_studentOf_iff.mp h₄
    obtain ⟨-, rfl⟩ := (run_pure_iff _).mp hr₄
    exact ⟨hw₁, hlooks, hd⟩
  | teacher =>
    obtain ⟨q, w₃, h₃, hr₃⟩ := (run_bind_iff _).mp hr₂
    obtain ⟨rfl, hd⟩ := hcast ht (fun x hx => by cases x <;> first | rfl | cases hx) h₃
    obtain ⟨s, w₄, h₄, hr₄⟩ := (run_bind_iff _).mp hr₃
    obtain ⟨-, rfl⟩ := run_teacherOf_iff.mp h₄
    obtain ⟨-, rfl⟩ := (run_pure_iff _).mp hr₄
    exact ⟨hw₁, hlooks, hd⟩
  | admin =>
    obtain ⟨b, w₃, h₃, hr₃⟩ := (run_bind_iff _).mp hr₂
    obtain ⟨-, rfl⟩ := run_fromDB_iff.mp h₃
    obtain ⟨-, rfl⟩ := (run_pure_iff _).mp hr₃
    refine ⟨hw₁, hlooks, fun c hc => ?_⟩
    rw [ht] at hc
    cases hc

theorem listable_of_updateTable {accs : List ℕ} (h : Reader db w) (hp : ∀ p ∈ accs, ∃ d, w.Holds p .accountDB d)
    {r : List AccountRow} (hr : run (AccountsTable.updateTable (accs.map some)) w = .ok (r, w')) :
    Reader db w' ∧ ∀ p ∈ accs, ∀ d, w.Holds p .accountDB d → db.Listable d := by
  induction accs generalizing w r with
  | nil =>
    obtain ⟨-, rfl⟩ := (run_pure_iff _).mp hr
    exact ⟨h, by simp⟩
  | cons acc accs ih =>
    obtain ⟨row, w₁, h₁, hr⟩ := (run_bind_iff _).mp hr
    obtain ⟨rows, w₂, h₂, hr⟩ := (run_bind_iff _).mp hr
    obtain ⟨-, rfl⟩ := (run_pure_iff _).mp hr
    rw [List.forall_mem_cons] at hp
    obtain ⟨d, hd⟩ := hp.1
    obtain ⟨hw₁, hl, -⟩ := h.listable_of_row hd h₁
    obtain ⟨hw₂, hall⟩ := ih hw₁ (fun p hp' => (hp.2 p hp').imp fun d hd => hd.mono hl) h₂
    rw [List.forall_mem_cons]
    exact ⟨hw₂, fun d hd => (h.listable_of_row hd h₁).2.2, fun p hp' d hd => hall p hp' d (hd.mono hl)⟩

/-- An account that can be listed is. -/
theorem replies_row (h : Reader db w) (hn : Named κ db) (hp : w.Holds acc .accountDB d) (hd : db.Listable d) :
    Replies db (AccountsTable.row acc) w fun _ _ => True := by
  refine (h.replies_info hn hp hd).bind fun info w₁ h₁ hl hinfo => ?_
  obtain ⟨b, a, ha, hc⟩ := h₁.account (hp.mono hl)
  refine .seq (run_accountType_iff.mpr ⟨⟨_, a, ha, rfl⟩, rfl⟩) ?_
  cases ht : a.accountType with
  | student =>
    obtain ⟨q, d', rfl, -, hq⟩ := hinfo.2 .studentInfoDB (by rw [hc, ht]; rfl)
    obtain ⟨b', x, hg, -, hx, -⟩ := hq
    cases x <;> simp only [Fields.cls, reduceCtorEq] at hx
    refine .seq (run_castDeref_iff.mpr ⟨rfl, ⟨_, hg, rfl⟩, rfl⟩) ?_
    exact .seq (run_studentOf_iff.mpr ⟨⟨_, hg⟩, rfl⟩) (Replies.pure h₁ trivial)
  | teacher =>
    obtain ⟨q, d', rfl, -, hq⟩ := hinfo.2 .teacherInfoDB (by rw [hc, ht]; rfl)
    obtain ⟨b', x, hg, -, hx, -⟩ := hq
    cases x <;> simp only [Fields.cls, reduceCtorEq] at hx
    refine .seq (run_castDeref_iff.mpr ⟨rfl, ⟨_, hg, rfl⟩, rfl⟩) ?_
    exact .seq (run_teacherOf_iff.mpr ⟨⟨_, hg⟩, rfl⟩) (Replies.pure h₁ trivial)
  | admin => exact .seq (run_fromDB_iff.mpr ⟨header_eq_ok.mpr ⟨_, ha⟩, rfl⟩) (Replies.pure h₁ trivial)

theorem replies_updateTable {accs : List (Option ℕ)} (h : Reader db w) (hn : Named κ db)
    (hp : ∀ p, some p ∈ accs → ∃ d, w.Holds p .accountDB d ∧ db.Listable d) :
    Replies db (AccountsTable.updateTable accs) w fun _ _ => True := by
  induction accs generalizing w with
  | nil => exact Replies.pure h trivial
  | cons acc? accs ih =>
    have htail : ∀ p, some p ∈ accs → ∃ d, w.Holds p .accountDB d ∧ db.Listable d :=
      fun p hp' => hp p (List.mem_cons_of_mem _ hp')
    cases acc? with
    | none => exact ih h htail
    | some acc =>
      obtain ⟨d, hd, hl⟩ := hp acc (by simp)
      refine (h.replies_row hn hd hl).bind fun row w₁ h₁ hl₁ _ => ?_
      refine (ih h₁ fun p hp' => ?_).bind fun rows w₂ h₂ _ _ => Replies.pure h₂ trivial
      obtain ⟨d, hd, hl⟩ := htail p hp'
      exact ⟨d, hd.mono hl₁, hl⟩

/-! ### The group of a student -/

theorem replies_group (h : Reader db w) (hn : Named κ db) (hp : w.Holds p .studentInfoDB d) :
    Replies db (StudentInfoDB.getGroup p) w fun r w' => Option.Rel (w'.Shows .groups) r (db.follow d .group) := by
  have hf : Getter.field .getStudentGroup ∈ DBClass.studentInfoDB.refs := by decide
  obtain ⟨hc, i, x, hd, hx⟩ := h.stored_of_holds hp
  have hrep := h.replies_get (g := .getStudentGroup) (by decide) (fun _ => rfl) hp (by decide) hf
    ((hn.isOf hd hc hx).refs .group hf) fun c d' hcl hfol => ?_
  · refine hrep.mono fun r w' _ _ hr => hr.resolve_left fun hr => ?_
    cases hr.1
  · obtain rfl := Option.some.inj hcl
    exact hn.fields_follow (by decide) hfol

/-! ### What the windows list -/

theorem replies_curators {accs : List ℕ} (h : Reader db w) (hn : Named κ db) (hp : db.Roll w accs) :
    Replies db (AdminWindow.curators accs) w fun r w' => ∀ p ∈ r, ∃ d, w'.Holds p .teacherInfoDB d := by
  induction accs generalizing w with
  | nil => exact Replies.pure h (by simp)
  | cons acc accs ih =>
    obtain ⟨d, hd, hl⟩ := hp acc (by simp)
    refine (h.replies_info hn hd hl).bind fun info w₁ h₁ hl₁ _ => ?_
    have hrest {w₂ : World} (h₂ : Reader db w₂) (hl₂ : Looks w₁ w₂) := ih h₂ ((hp.tail.mono hl₁).mono hl₂)
    split_ifs with hi
    · refine (h₁.replies_info hn (hd.mono hl₁) hl).bind fun info w₂ h₂ hl₂ hinfo => ?_
      cases info with
      | none => exact .seq (run_cast_iff.mpr ⟨rfl, .inl ⟨rfl, rfl⟩⟩) (hrest h₂ hl₂)
      | some q =>
        obtain ⟨d', c', hk, b, x, hg, hb, hx, hd'⟩ := hinfo.1 q rfl
        refine .seq (run_cast_iff.mpr ⟨rfl, .inr ⟨q, _, rfl, hg, rfl⟩⟩) ?_
        cases x with
        | teacher t =>
          refine (hrest h₂ hl₂).bind fun r w₃ h₃ hl₃ hr => Replies.pure h₃ ?_
          have hq : w₂.Holds q .teacherInfoDB d' := ⟨b, _, hg, hb, rfl, hd'⟩
          exact List.forall_mem_cons.mpr ⟨⟨d', hq.mono hl₃⟩, hr⟩
        | account | group | additionalInfo | student | schedule => exact hrest h₂ hl₂
    · exact hrest h₁ .refl

theorem replies_curatorNames {curs : List ℕ} (h : Reader db w) (hp : ∀ p ∈ curs, ∃ d, w.Holds p .teacherInfoDB d) :
    Replies db (AdminWindow.curatorNames curs) w fun _ _ => True := by
  induction curs generalizing w with
  | nil => exact Replies.pure h trivial
  | cons cur curs ih =>
    rw [List.forall_mem_cons] at hp
    obtain ⟨d, b, x, hg, -, hx, -⟩ := hp.1
    cases x with
    | teacher t =>
      have hname : run (AdminWindow.curatorName cur) w = .ok (cStr (t.firstName ++ " " ++ t.secondName), w) :=
        (run_bind_iff _).mpr ⟨t, w, run_teacherOf_iff.mpr ⟨⟨_, hg⟩, rfl⟩, rfl⟩
      exact .seq hname ((ih h hp.2).bind fun _ _ h₁ _ _ => Replies.pure h₁ trivial)
    | account | group | additionalInfo | student | schedule => cases hx

theorem replies_ungrouped {accs : List ℕ} (h : Reader db w) (hn : Named κ db) (hp : db.Roll w accs) :
    Replies db (UngroupedAccountsTable.ungrouped accs) w fun r _ => ∀ p, some p ∈ r → p ∈ accs := by
  induction accs generalizing w with
  | nil => exact Replies.pure h (by simp)
  | cons acc accs ih =>
    obtain ⟨d, hd, hl⟩ := hp acc (by simp)
    refine (h.replies_info hn hd hl).bind fun info w₁ h₁ hl₁ hinfo => ?_
    have hrest {w₂ : World} (h₂ : Reader db w₂) (hl₂ : Looks w₁ w₂) :
        Replies db (UngroupedAccountsTable.ungrouped accs) w₂ fun r _ => ∀ p, some p ∈ r → p ∈ acc :: accs :=
      (ih h₂ ((hp.tail.mono hl₁).mono hl₂)).mono fun r _ _ _ hr p hp => List.mem_cons_of_mem _ (hr p hp)
    cases info with
    | none => exact .seq (run_cast_iff.mpr ⟨rfl, .inl ⟨rfl, rfl⟩⟩) (hrest h₁ .refl)
    | some q =>
      obtain ⟨d', c', hk, b, x, hg, hb, hx, hd'⟩ := hinfo.1 q rfl
      refine .seq (run_cast_iff.mpr ⟨rfl, .inr ⟨q, _, rfl, hg, rfl⟩⟩) ?_
      cases x with
      | student s =>
        have hq : w₁.Holds q .studentInfoDB d' := ⟨b, _, hg, hb, rfl, hd'⟩
        refine (h₁.replies_group hn hq).bind fun grp w₂ h₂ hl₂ _ => ?_
        split_ifs
        · refine (hrest h₂ hl₂).bind fun r w₃ h₃ _ hr => Replies.pure h₃ fun p hp => ?_
          rcases List.mem_cons.mp hp with hp | hp
          · exact Option.some.inj hp ▸ List.mem_cons_self
          · exact hr p hp
        · exact hrest h₂ hl₂
      | account | group | additionalInfo | teacher | schedule => exact hrest h₁ .refl

theorem replies_groupNames {grps : List ℕ} (h : Reader db w)
    (hp : ∀ p ∈ grps, ∃ i d, db.get? .groups i = some d ∧ w.Holds p .groupDB d) :
    Replies db (groupNames grps) w fun _ _ => True := by
  induction grps generalizing w with
  | nil => exact Replies.pure h trivial
  | cons grp grps ih =>
    rw [List.forall_mem_cons] at hp
    obtain ⟨i, d, -, b, x, hg, -, hx, -⟩ := hp.1
    cases x with
    | group g =>
      exact .seq (run_groupOf_iff.mpr ⟨⟨_, hg⟩, rfl⟩) ((ih h hp.2).bind fun _ _ h₁ _ _ => Replies.pure h₁ trivial)
    | account | additionalInfo | student | teacher | schedule => cases hx

theorem replies_groupsTable (h : Reader db w) (hn : Named κ db) : Replies db GroupsDBTable.updateTable w fun _ _ => True :=
  (h.replies_getAll hn (by decide)).bind fun _ _ h₁ _ hr =>
    (h₁.replies_groupNames hr).bind fun _ _ h₂ _ _ => Replies.pure h₂ trivial

end Reader

end Cbt
