import Cbt.Accounts.Logins
import Cbt.Startup.Keeping
import Cbt.Updates.Adding

/-! The account form. It stores an account without an info, then an info of the account's
type that names the account, and then the account again with the id of the info. So the new
account can be listed when the command has completed, and not before. -/

namespace Cbt

open Lib.Command (run_bind_iff run_pure_iff run_fault_iff)

variable {w w₁ w₂ w' : World} {x : Fields} {b : IFromDB} {a : Account} {t : AccountType} {i : Oid}

/-! ### The info of the form -/

/-- The form makes a plain info of the class of its type, if the type has one. -/
theorem info_getNewAccount {form : DisplayAccountWidget} {data : ℕ × Option ℕ} (hw : Sound w)
    (h : run form.getNewAccount w = .ok (data, w')) :
    (data.2 = none → InfosController.classOf form.editType = none) ∧ ∀ info, data.2 = some info → info ≠ data.1 ∧
      ∃ x, w'.heap.get info = some ⟨none, x⟩ ∧ InfosController.classOf form.editType = some x.cls := by
  simp only [DisplayAccountWidget.getNewAccount, run_bind_iff, run_newObj_iff] at h
  obtain ⟨_, _, ⟨rfl, rfl⟩, h⟩ := h
  set w₁ := w.push ⟨none, .account
    { login := form.editLogin, password := form.editPassword, accountType := form.editType }⟩ with hw₁
  have hne : w₁.heap.next ≠ w.heap.next := by simp [hw₁]
  have l₁ : Looks w w₁ := .push w _
  cases ht : form.editType with
  | student =>
    simp only [ht, run_bind_iff, run_newObj_iff] at h
    obtain ⟨_, w₂, ⟨rfl, hw₂⟩, grp, w₃, h₃, h⟩ := h
    have l₂ : Looks w w₂ := l₁.trans (hw₂ ▸ Looks.push w₁ _)
    have l₃ : Looks w₂ w₃ := (views_getGroupFromEdit form).looks (l₂.sound hw) h₃
    have hpush : w₂.heap.get w₁.heap.next = some ⟨none, .student
        { firstName := form.editFirstName, secondName := form.editSecondName, curs := toInt form.editCurs }⟩ := by
      rw [← hw₂]
      exact Lib.Heap.get_push_next _ _
    have finish {w₄ : World} (hl : Looks w₂ w₄) : ∃ x, w₄.heap.get w₁.heap.next = some ⟨none, x⟩ ∧
        InfosController.classOf .student = some x.cls := by
      obtain ⟨x, hx, hbare⟩ := hl.plain hpush
      exact ⟨x, hx, by rw [Fields.cls_of_bare hbare]; rfl⟩
    split_ifs at h
    · simp only [run_bind_iff, run_pure_iff] at h
      obtain ⟨grp', w₄, h₄, _, w₅, h₅, rfl, rfl⟩ := h
      have l₄ := l₃.trans ((views_getGroupFromEdit form).looks (Looks.sound (l₂.trans l₃) hw) h₄)
      have l₅ := l₄.trans (Looks.of_quiet (quiet_setRef (Looks.sound (l₂.trans l₄) hw) h₅))
      refine ⟨by simp, fun info hinfo => ?_⟩
      obtain rfl := Option.some.inj hinfo
      exact ⟨hne, finish l₅⟩
    · obtain ⟨rfl, rfl⟩ := (run_pure_iff _).mp h
      refine ⟨by simp, fun info hinfo => ?_⟩
      obtain rfl := Option.some.inj hinfo
      exact ⟨hne, finish l₃⟩
  | teacher =>
    simp only [ht, run_bind_iff, run_newObj_iff, run_pure_iff] at h
    obtain ⟨_, _, ⟨rfl, rfl⟩, rfl, rfl⟩ := h
    refine ⟨by simp, fun info hinfo => ?_⟩
    obtain rfl := Option.some.inj hinfo
    exact ⟨hne, _, Lib.Heap.get_push_next _ _, rfl⟩
  | admin =>
    simp only [ht, run_pure_iff] at h
    obtain ⟨rfl, rfl⟩ := h
    exact ⟨fun _ => rfl, fun info hinfo => by cases hinfo⟩

/-! ### The owner takes the info -/

/-- What an account's object writes is listed as of its type. -/
theorem infoClass_written {h : Memory} {d : Doc} (hd : (Fields.account a).toDoc h = .ok d) (i : Oid) :
    Doc.infoClass (("_id", .oid i) :: d) = InfosController.classOf a.accountType := by
  obtain ⟨ref, m, -, rfl⟩ := toDoc_eq_ok.mp hd
  rw [Doc.infoClass, show DBClass.accountDB.fields _ = _ from fields_written (.account a) ref m i]
  rfl

/-- An account without an info can be listed when its type has none. -/
theorem listable_of_none {db : Database} {d : Doc} (h : d.infoClass = none) : db.Listable d :=
  fun c hc => by cases h.symm.trans hc

/-- The account with the id can be listed, every other is as it was, and an info is one of a student or as it was. -/
structure Presents (w : World) (i : Oid) (w' : World) : Prop where
  infos : w.env.KeepsInfos (· = .studentInfoDB) w'.env
  others : ∀ j, j ≠ i → w'.stored .accounts j = w.stored .accounts j
  listable : ∀ d, w'.stored .accounts i = some d → w'.env.Listable d

theorem Presents.after (h : Presents w₁ i w') (hi : w.env.KeepsInfos (· = .studentInfoDB) w₁.env)
    (ho : ∀ j, j ≠ i → w₁.stored .accounts j = w.stored .accounts j) : Presents w i w' :=
  ⟨hi.trans h.infos, fun j hj => (h.others j hj).trans (ho j hj), h.listable⟩

/-- An account that is given an info of the class of its type can be listed. -/
theorem Attached.presents {acc res : ℕ} {c : IFromDB} {y : Fields} {d : Doc} {cls : DBClass} (h : Attached w acc res w')
    (hacc : w.heap.get acc = some ⟨some b, .account a⟩) (hres : w.heap.get res = some ⟨some c, y⟩) (hc : c.isExist = true)
    (hd : w.stored .infos c.id = some d) (hcls : InfosController.classOf a.accountType = some cls) (hr : cls.Reads .infos d) :
    Presents w b.id w' := by
  obtain ⟨ba, br, a', x, ha', hr', -, hgiven⟩ := h.given
  obtain ⟨rfl, rfl⟩ : b = ba ∧ a = a' := by simpa [hacc] using ha'
  obtain ⟨da, hda, hst, -⟩ := hgiven.docs
  have hinfos (j : Oid) : w'.stored .infos j = w.stored .infos j := by rw [hst, if_neg (by simp)]
  refine ⟨.of_eq hinfos, fun j hj => by rw [hst, if_neg fun h => hj h.2], fun da' hda' => ?_⟩
  rw [hst, if_pos ⟨rfl, rfl⟩] at hda'
  obtain rfl := Option.some.inj hda'
  intro c' hc'
  have hclass := infoClass_written hda b.id
  obtain rfl : cls = c' := Option.some.inj ((hcls.symm.trans hclass.symm).trans hc')
  obtain ⟨-, -, z, hz⟩ := hr
  refine ⟨d, z, ?_, hz⟩
  -- the document names the info by its id
  have hval : (Pointer.to res).value w.heap = .ok (.oid c.id) := by
    simp [Pointer.value, header_eq_ok.mpr ⟨y, hres⟩, hc]
  obtain ⟨ref, m, hwr, rfl⟩ := toDoc_eq_ok.mp hda
  have href := Except.ok.inj ((hwr.ref .additionalInfo _ rfl).symm.trans hval)
  have hget : Doc.get? (("_id", .oid b.id) :: (Fields.account { a with additionalInfo := .to res }).written ref m)
      (RefField.key .additionalInfo) = some (.oid c.id) := by
    rw [Doc.get?_cons, if_neg (by decide), ← href]
    exact get?_written (by simp [Fields.cls, DBClass.refs])
  rw [Database.follow, hget]
  exact (hinfos c.id).trans hd

/-- A new student that is asked for its group is stored as it was, or as one of the group. -/
theorem keepsInfos_grouped {temp : ℕ} (hw : Sound w) (h : Grouped w temp w') (ht : w.heap.get temp = some ⟨some b, x⟩)
    (hn : x.ref .group = some .null) : w.env.KeepsInfos (· = .studentInfoDB) w'.env := by
  rcases cases_of_grouped hw h ht hn with ⟨henv, -, -⟩ | ⟨i, g, w₁, -, hl, hq, he⟩
  · exact .of_env henv
  · obtain ⟨bg, bs, gr, s, -, -, hm⟩ := Enrolled.moved he
    exact (Database.KeepsInfos.of_env hq.env).trans hm.keepsInfos.1

/-- The owner takes the stored info, which has joined its group first if it is a student's. -/
theorem Drafted.presents {pa : ℕ} (h : Drafted w x pa w₁) (hpa : w.heap.get pa = some ⟨some b, .account a⟩)
    (ht : InfosController.classOf a.accountType = some x.cls)
    (hgr : x.cls = .studentInfoDB ∧ Grouped w₁ w.heap.next w₂ ∨ x.cls = .teacherInfoDB ∧ w₂ = w₁)
    (hatt : Attached w₂ pa w.heap.next w') : Presents w b.id w' := by
  obtain ⟨ref, m, hwr, hget, hdoc⟩ := h.new
  have hr : x.cls.Reads .infos (w.draft x ref m).doc := by
    refine reads_written ?_ ?_ (toDoc_eq_ok.mpr ⟨ref, m, hwr, rfl⟩) _
    · exact Fields.kind_of_classOf ht
    · intro hne
      rw [hne] at ht
      cases hty : a.accountType <;> simp [hty, InfosController.classOf] at ht
  have hinfos : w.env.KeepsInfos (· = .studentInfoDB) w₁.env := fun j d hd => ⟨d, h.keeps _ j d hd, .inl rfl⟩
  have haccs : w₁.stored .accounts = w.stored .accounts := h.stored _ (by simp)
  have hpa₁ := h.other _ _ _ hpa
  rcases hgr with ⟨hstud, hgr⟩ | ⟨-, rfl⟩
  · obtain ⟨s, rfl⟩ : ∃ s, x = .student s := by cases x <;> first | exact ⟨_, rfl⟩ | cases hstud
    have hi := keepsInfos_grouped h.sound hgr hget rfl
    obtain ⟨⟨c, y, hc, -, hid, hex⟩, ha⟩ := info_of_grouped h.sound hgr hget rfl rfl
    obtain ⟨d', hd', hkept⟩ := hi w.env.nextOid _ hdoc
    have hreads : DBClass.studentInfoDB.Reads .infos d' := by
      rcases hkept with rfl | ⟨_, rfl, hkept⟩
      · exact hr
      · exact hkept
    have hpa₂ := account_of_grouped h.sound hgr hget rfl hpa₁
    refine (hatt.presents hpa₂ hc hex (hid ▸ hd') ht hreads).after (hinfos.trans hi) fun j _ => ?_
    rw [ha, haccs]
  · refine (hatt.presents hpa₁ hget rfl hdoc ht hr).after hinfos fun j _ => ?_
    rw [haccs]

/-- What is added for an account that is cached under its id makes it one that can be listed. -/
theorem presents_of_infosAdd {e pa : ℕ} {r : Option ℕ} {v : Pointer} (hw : Sound w) (he : w.heap.get e = some ⟨none, x⟩)
    (hta : a.accountType = t) (ht : InfosController.classOf t = some x.cls) (hv : x.ref .owner = some v)
    (hval : v.value w.heap = .ok (.oid b.id)) (hc : w.cached .accounts b.id = some pa)
    (hpa : w.heap.get pa = some ⟨some b, .account a⟩)
    (h : run (InfosController.add e t) w = .ok (r, w')) : Presents w b.id w' := by
  obtain ⟨acc, w₁, w₂, hdr, hsup, hgr, hatt⟩ := added_of_run hw he ht hv hval h
  obtain rfl := hsup.eq_of_cached hc
  exact hdr.presents hpa (hta ▸ ht) hgr hatt

/-! ### The command -/

/-- The caches find the same objects after an edit of a plain one. -/
theorem cached_put_plain {p : ℕ} {x' : Fields} (hp : w.heap.get p = some ⟨none, x⟩) :
    (w.put p ⟨none, x'⟩).cached = w.cached := by
  have hid : (w.put p ⟨none, x'⟩).idOf = w.idOf := by
    funext q
    simp only [Lib.Conf.idOf, Lib.Conf.get_put hp]
    split_ifs with hq
    · simp [hq, hp]
    · rfl
  funext k j
  simp only [Lib.Conf.cached, hid, Lib.Conf.cash_put]

/-- The account of the form can be listed when its info, if its type has one, is given to it. -/
theorem presents_of_infoGiven {info? : Option ℕ} {acc : ℕ} (hw : Sound w) (hacc : w.heap.get acc = some ⟨some b, .account a⟩)
    (hex : b.isExist = true) (hc : w.cached .accounts b.id = some acc)
    (hnone : info? = none → ∀ d, w.stored .accounts b.id = some d → w.env.Listable d)
    (hsome : ∀ info, info? = some info → ∃ x, w.heap.get info = some ⟨none, x⟩ ∧
      InfosController.classOf a.accountType = some x.cls)
    (h : InfoGiven w info? acc w') : Presents w b.id w' := by
  rcases h with ⟨hn, rfl⟩ | ⟨info, t, r, w₁, hinfo, h₁, h₂, h₃⟩
  · exact ⟨.of_env rfl, fun _ _ => rfl, hnone hn⟩
  obtain ⟨x, hx, ht⟩ := hsome info hinfo
  have q₁ := quiet_setRef hw h₁
  obtain ⟨oi, v, oa, ba, xa, hoi, hv, -, -, hacc', hw₁⟩ := run_setRef_some_iff.mp h₁
  obtain rfl := Option.some.inj (hx.symm.trans hoi)
  have hne : acc ≠ info := by
    rintro rfl
    simp [hx] at hacc
  have hacc₁ : (w.put info (Obj.setRef ⟨none, x⟩ .owner (.to acc))).heap.get acc = some ⟨some b, .account a⟩ := by
    rw [Lib.Conf.get_put hx, if_neg hne, hacc]
  obtain ⟨rfl, rfl⟩ : b = ba ∧ .account a = xa := by simpa using hacc₁.symm.trans hacc'
  have hacc₂ : w₁.heap.get acc = some ⟨some (b.own 1), .account a⟩ := by rw [← hw₁, Lib.Conf.get_put hacc₁, if_pos rfl]
  have hx₂ : w₁.heap.get info = some (Obj.setRef ⟨none, x⟩ .owner (.to acc)) := by
    rw [← hw₁, Lib.Conf.get_put hacc₁, if_neg hne.symm, Lib.Conf.get_put hx, if_pos rfl]
  have hcached : w₁.cached = w.cached := by
    rw [← hw₁]
    refine (cached_put hacc₁ ?_).trans (cached_put_plain hx)
    rfl
  obtain ⟨⟨c, a', ha', rfl⟩, -⟩ := run_accountType_iff.mp h₂
  obtain rfl := Fields.account.inj (Obj.mk.inj (Option.some.inj (hacc₂.symm.trans ha'))).2
  have hval := value_of_is (c := .accountDB) ⟨b.own 1, _, hacc₂, hex, rfl, rfl⟩
  have hcls := ht.trans (congrArg some (Fields.cls_setRef x .owner (.to acc)).symm)
  have hin : w₁.cached .accounts (b.own 1).id = some acc := by
    rw [hcached]
    exact hc
  have hp := presents_of_infosAdd (b := b.own 1) (q₁.sound hw) hx₂ rfl hcls (Fields.ref_setRef hv _) hval hin hacc₂ h₃
  exact hp.after (.of_env q₁.env) fun j _ => by rw [q₁.stored]

/-- A new account is stored, built and cached. -/
structure AccountAdded (w : World) (t : AccountType) (acc : ℕ) (b : IFromDB) (a : Account) (w' : World) : Prop where
  get : w'.heap.get acc = some ⟨some b, .account a⟩
  exist : b.isExist = true
  type : a.accountType = t
  cached : w'.cached .accounts b.id = some acc
  infos : ∀ j, w'.stored .infos j = w.stored .infos j
  others : ∀ j, j ≠ b.id → w'.stored .accounts j = w.stored .accounts j
  stored : ∀ d, w'.stored .accounts b.id = some d → d.infoClass = InfosController.classOf t
  plain : ∀ p x, w.heap.get p = some ⟨none, x⟩ → (∀ c, x ≠ .account c) → w'.heap.get p = some ⟨none, x⟩

theorem accountAdded {e acc : ℕ} (hw : Sound w) (hi : Issued w)
    (he : w.heap.get e = some ⟨none, .account a⟩) (h : run (Controller.add .accounts e) w = .ok (some acc, w')) :
    ∃ b a', AccountAdded w a.accountType acc b a' w' := by
  obtain ⟨x, d, o, he', -, hd, -, ho, hr, rfl⟩ := run_add_iff.mp h
  obtain ⟨-, rfl⟩ := Obj.mk.inj (Option.some.inj (he'.symm.trans he))
  obtain rfl := Option.some.inj hr
  have hclass := infoClass_written hd w.env.nextOid
  have hpost : Sound (w.post .accounts e d) := hw.post he d
  have hnext : (w.post .accounts e d).heap.next = w.heap.next := by simp
  obtain ⟨y, j, hy, hj, rfl⟩ := ofDoc_eq_ok.mp ho
  obtain rfl : w.env.nextOid = j := by simpa [Collection.withId] using hj
  obtain ⟨a', rfl, hta⟩ : ∃ a', y = .account a' ∧ a'.accountType = a.accountType := by
    obtain ⟨ref, m, -, rfl⟩ := toDoc_eq_ok.mp hd
    exact ⟨_, Except.ok.inj (hy.symm.trans (fields_written (.account a) ref m _)), rfl⟩
  set b : IFromDB := IFromDB.own 1 { doc := Collection.withId w.env.nextOid d, id := w.env.nextOid } with hb
  have hnone : (w.post .accounts e d).cached .accounts b.id = none := by
    rw [cached_post hw he, Lib.Conf.cached_eq_none]
    intro p hp hid
    obtain ⟨c, z, hg, -⟩ := hw.entry .accounts p hp
    exact (hi.lt hg).ne (Option.some.inj ((Lib.Conf.idOf_of_get hg).symm.trans hid))
  refine ⟨b, a', hnext ▸ Lib.Heap.get_push_next _ _, rfl, hta, ?_, fun j => ?_, fun j hj => ?_, fun d' hd' => ?_,
    fun p x hp hx => ?_⟩
  · exact (cached_load hpost (.account a') hnone .accounts b.id).trans ((if_pos ⟨rfl, rfl⟩).trans (congrArg some hnext))
  · exact (stored_post (e := e) .infos j).trans (if_neg (by simp))
  · exact (stored_post (e := e) .accounts j).trans (if_neg fun h => hj h.2)
  · obtain rfl := Option.some.inj ((stored_post_new (w := w) (e := e)).symm.trans hd')
    exact hclass
  · have hne : p ≠ e := by
      rintro rfl
      obtain ⟨-, rfl⟩ := Obj.mk.inj (Option.some.inj (hp.symm.trans he))
      exact hx a rfl
    rw [Lib.Conf.heap_load]
    refine Lib.Heap.get_push_of_some _ ?_
    rw [heap_post, Lib.Heap.get_free, if_neg hne, hp]

/-- What the form adds can be listed, and the infos that are stored go on being. -/
theorem listable_of_addNewAccount {win win' : AdminWindow} (hw : Sound w) (hi : Issued w)
    (hr : run win.addNewAccount w = .ok (win', w')) : w.env.KeepsInfos (· = .studentInfoDB) w'.env ∧
      ∀ i d, w'.stored .accounts i = some d → w.stored .accounts i = some d ∨ w'.env.Listable d := by
  obtain ⟨data, w₁, acc, w₂, w₃, h₁, h₂, h₃, h₄⟩ := run_addNewAccount hr
  obtain ⟨hdata, hlook⟩ := run_getNewAccount hw h₁
  obtain ⟨hno, hsome⟩ := info_getNewAccount hw h₁
  have l₁ : Looks w w₁ := (Looks.push w _).trans hlook
  obtain ⟨x, he, hx⟩ := Looks.plain hlook (Lib.Heap.get_push_next w.heap _)
  rw [← hdata] at he
  obtain ⟨a, rfl⟩ := exists_account_of_kind (Fields.kind_of_bare hx)
  have hta : a.accountType = win.accountDisp.editType := by
    simp only [Fields.bare, Fields.account.injEq] at hx
    simpa using congrArg (fun a : Account => a.accountType) hx
  obtain ⟨b, a', hadd⟩ := accountAdded (Looks.sound l₁ hw) (hi.looks l₁) he h₂
  have hw₂ := (does_add (K := fun _ => True) (by simp) trivial _ _ _ _ h₂).sound (Looks.sound l₁ hw)
  have tail : Views (do AdminWindow.updateAccountsTable; win.updateGroupsScrean none) :=
    .bind views_updateAccountsTable fun _ => views_updateGroupsScrean win none
  have l₄ := tail.looks (h₃.sound hw₂) h₄
  obtain ⟨hk, ho, hl⟩ := presents_of_infoGiven hw₂ hadd.get hadd.exist hadd.cached
    (fun hn d hd => listable_of_none ((hadd.stored d hd).trans (hta ▸ hno hn)))
    (fun info hinfo => by
      obtain ⟨-, y, hy, hcls⟩ := hsome info hinfo
      refine ⟨y, hadd.plain info y hy ?_, by rw [hadd.type, hta, hcls]⟩
      rintro c rfl
      cases ht : win.accountDisp.editType <;> simp [ht, InfosController.classOf, Fields.cls] at hcls) h₃
  rw [l₄.env, l₄.stored]
  refine ⟨(Database.KeepsInfos.of_eq fun j => ?_).trans hk, fun i d hd => ?_⟩
  · exact (hadd.infos j).trans (by rw [l₁.stored]; rfl)
  · by_cases hib : i = b.id
    · subst hib
      exact .inr (hl d hd)
    · rw [ho i hib, hadd.others i hib, l₁.stored] at hd
      exact .inl hd

end Cbt
