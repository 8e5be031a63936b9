import Cbt.Codec.Shape
import Cbt.Caches.Registered
import Cbt.Effects.Extension
import Cbt.Windows.Beside
import Cbt.Accounts.Commands

/-! Logins. Nothing that writes an account asks whether its login is another's: a
sign-up looks for the login together with the password, and the administrator's
form looks for nothing. While no command is given a login that another stored
account has, logins stay unique, and a log-in opens the one account it names. A
second object of an account counts too: an update ends by storing the object that
the cache has for the account, with the login of that object. -/

namespace Cbt

open Lib.Command (run_bind_iff run_pure_iff)

variable {w w' : World}

/-- The document has the login and the password. -/
def Doc.HasLogPass (d : Doc) (l : LogPass) : Prop :=
  d.get? "Login" = some (.string l.login) ∧ d.get? "Password" = some (.string l.password)

/-- No two stored accounts have one login. -/
def LoginsUnique (w : World) : Prop :=
  ∀ o o' d d' s, w.stored .accounts o = some d → w.stored .accounts o' = some d' →
    d.get? "Login" = some (.string s) → d'.get? "Login" = some (.string s) → o = o'

/-- The login and the password of a stored account are found, and they log in to that account. -/
def LogInsOpen (w : World) : Prop :=
  ∀ l o d, w.stored .accounts o = some d → d.HasLogPass l →
    run (AccountsController.isAccountExist l) w = .ok (true, w) ∧
      ∃ p w', run (AccountsController.findFullAccount l) w = .ok (p, w') ∧ w'.idOf p = some o

/-- No stored account but the one with the id has the login. -/
def Lib.Conf.LoginFree (w : World) (i : Oid) (s : String) : Prop :=
  ∀ o d, o ≠ i → w.stored .accounts o = some d → d.get? "Login" ≠ some (.string s)

/-- The same, computed; without an id, no stored account at all. -/
def Lib.Conf.loginFree? (w : World) (i : Option Oid) (s : String) : Bool :=
  (w.env.coll .accounts).docs.all fun d => d.get? "_id" = i.map .oid ∨ d.get? "Login" ≠ some (.string s)

theorem loginFree_of_loginFree? {i : Option Oid} {s : String} (h : w.loginFree? i s = true) {o : Oid} {d : Doc}
    (ho : some o ≠ i) (hd : w.stored .accounts o = some d) : d.get? "Login" ≠ some (.string s) := by
  have h := of_decide_eq_true (List.all_eq_true.mp h d (mem_docs_of_stored hd))
  refine h.resolve_left fun hi => ho ?_
  obtain ⟨o', rfl, he⟩ := Option.map_eq_some_iff.mp (hi.symm.trans (stored_id hd))
  rw [Bson.oid.inj he]

/-! ### Documents of accounts -/

/-- An account is built of the document. -/
def Doc.IsAccount (d : Doc) (a : Account) : Prop := DBClass.accountDB.fields d = .ok (.account a)

theorem Doc.IsAccount.hasLogPass {d : Doc} {a : Account} (h : d.IsAccount a) : d.HasLogPass a.toLogPass := by
  simp only [Doc.IsAccount, DBClass.fields, exceptBind_eq_ok, exceptPure_eq_ok, Doc.getString_eq_ok, Fields.account.injEq] at h
  obtain ⟨login, hl, password, hp, -, -, -, -, rfl⟩ := h
  exact ⟨hl, hp⟩

/-- The document an account's object writes. -/
theorem isAccount_of_toDoc {h : Memory} {a : Account} {d : Doc} (hd : (Fields.account a).toDoc h = .ok d) (i : Oid) :
    ∃ a' : Account, Doc.IsAccount (("_id", .oid i) :: d) a' ∧ a'.login = a.login := by
  obtain ⟨ref, members, -, rfl⟩ := toDoc_eq_ok.mp hd
  exact ⟨_, fields_written (.account a) ref members i, rfl⟩

theorem Doc.fits_logPass {l : LogPass} {d : Doc} : Doc.fits l.toDoc d = true ↔ d.HasLogPass l := by
  simp only [Doc.fits, LogPass.toDoc, LogPass.build, List.all_cons, List.all_nil, Bool.and_true, Bool.and_eq_true,
    Doc.HasLogPass]
  apply and_congr
  · rcases d.get? "Login" with _ | (_ | _ | _ | _ | _) <;> simp [Bson.same]
  · rcases d.get? "Password" with _ | (_ | _ | _ | _ | _) <;> simp [Bson.same]

/-! ### Writing one account -/

section Owned
variable {A : String → Prop} {i : Oid} {w₀ : World}

/-- The other accounts are stored as they were, and the one with the id has a login of `A`. -/
structure OnlyWritten (A : String → Prop) (i : Oid) (w₀ w : World) : Prop where
  others : ∀ o, o ≠ i → w.stored .accounts o = w₀.stored .accounts o
  login : ∀ d, w.stored .accounts i = some d → ∃ a, d.IsAccount a ∧ A a.login

/-- Moreover the object that the cache has for the id, if any, has such a login. -/
structure Owned (A : String → Prop) (i : Oid) (w₀ w : World) : Prop extends OnlyWritten A i w₀ w where
  entry : ∀ p ∈ w.cash .accounts, ∃ b x, w.heap.get p = some ⟨some b, x⟩ ∧ b.isExist = true ∧ x.kind = .accounts
  cached : ∀ q c a, w.cached .accounts i = some q → w.heap.get q = some ⟨c, .account a⟩ → A a.login

theorem OnlyWritten.congr (h : OnlyWritten A i w₀ w) (hs : w'.stored .accounts = w.stored .accounts) :
    OnlyWritten A i w₀ w' := ⟨hs ▸ h.others, hs ▸ h.login⟩

theorem login_of_bare {a a' : Account} (h : (Fields.account a').bare = (Fields.account a).bare) : a'.login = a.login := by
  simp only [Fields.bare, Fields.account.injEq] at h
  simpa using congrArg (fun a : Account => a.login) h

theorem exists_account_of_kind {x : Fields} (h : x.kind = .accounts) : ∃ a, x = .account a := by
  cases x <;> first | exact ⟨_, rfl⟩ | cases h

namespace Owned

/-- A cache that is the same list of objects that are kept. -/
theorem keep (h : Owned A i w₀ w) (hs : w'.stored .accounts = w.stored .accounts) (hc : w'.cash .accounts = w.cash .accounts)
    (hk : KindKept .accounts w w') : Owned A i w₀ w' := by
  have hkept : ∀ p ∈ w.cash .accounts, ∃ b x b' x', w.heap.get p = some ⟨some b, x⟩ ∧
      w'.heap.get p = some ⟨some b', x'⟩ ∧ b'.core = b.core ∧ x'.bare = x.bare ∧ b.isExist = true ∧ x.kind = .accounts := by
    intro p hp
    obtain ⟨b, x, hg, hb, hx⟩ := h.entry p hp
    obtain ⟨b', x', hg', hcore, hbare⟩ := hk p b x hg hb hx
    exact ⟨b, x, b', x', hg, hg', hcore, hbare, hb, hx⟩
  have hfind : w'.cached .accounts i = w.cached .accounts i := by
    unfold Lib.Conf.cached
    rw [hc]
    refine List.find?_congr fun p hp => ?_
    obtain ⟨b, x, b', x', hg, hg', hcore, -⟩ := hkept p hp
    simp only [IFromDB.core, Prod.mk.injEq] at hcore
    rw [Lib.Conf.idOf_of_get hg, Lib.Conf.idOf_of_get hg', hcore.1]
  refine ⟨h.congr hs, fun p hp => ?_, fun q c a hq hg => ?_⟩
  · rw [hc] at hp
    obtain ⟨b, x, b', x', -, hg', hcore, hbare, hb, hx⟩ := hkept p hp
    simp only [IFromDB.core, Prod.mk.injEq] at hcore
    exact ⟨b', x', hg', hcore.2.2.trans hb, (Fields.kind_of_bare hbare).trans hx⟩
  · rw [hfind] at hq
    obtain ⟨b, x, b', x', hg₀, hg', -, hbare, -, hx⟩ := hkept q (Lib.Conf.cached_mem hq)
    obtain ⟨a₀, rfl⟩ := exists_account_of_kind hx
    obtain rfl : x' = .account a := (Obj.mk.inj (Option.some.inj (hg'.symm.trans hg))).2
    rw [login_of_bare hbare]
    exact h.cached q _ a₀ hq hg₀

/-- A loaded account has the login of its document. -/
theorem load (h : Owned A i w₀ w) {b : IFromDB} {x : Fields} (hc : w.cached .accounts b.id = none)
    (hs : w.stored .accounts b.id = some b.doc) (hb : b.isExist = true) (hk : x.kind = .accounts)
    (hx : x.cls.fields b.doc = .ok x) : Owned A i w₀ (w.load .accounts ⟨some b, x⟩) := by
  have hold : ∀ p ∈ w.cash .accounts, (w.load .accounts ⟨some b, x⟩).heap.get p = w.heap.get p := by
    intro p hp
    obtain ⟨b', y, hg, -⟩ := h.entry p hp
    rw [hg]
    exact Lib.Heap.get_push_of_some _ hg
  refine ⟨h.congr rfl, fun p hp => ?_, fun q c a hq hg => ?_⟩
  · rw [Lib.Conf.cash_load, if_pos rfl] at hp
    rcases List.mem_append.mp hp with hp | hp
    · rw [hold p hp]
      exact h.entry p hp
    · obtain rfl := List.mem_singleton.mp hp
      exact ⟨b, x, Lib.Heap.get_push_next _ _, hb, hk⟩
  · rw [cached_load_of_entry (fun p hp => ?_) x hc] at hq
    · split_ifs at hq with hi
      · obtain rfl := Option.some.inj hq
        obtain ⟨-, rfl⟩ := Obj.mk.inj (Option.some.inj ((Lib.Heap.get_push_next w.heap _).symm.trans hg))
        obtain ⟨a', ha', hA⟩ := h.login b.doc (hi.2 ▸ hs)
        obtain rfl : a' = a := by
          have := ha'.symm.trans hx
          simpa using this
        exact hA
      · rw [hold q (Lib.Conf.cached_mem hq)] at hg
        exact h.cached q c a hq hg
    · obtain ⟨b', y, hg', -⟩ := h.entry p hp
      exact ⟨b', y, hg'⟩

theorem besides (h : Owned A i w₀ w) (hb : Besides .accounts w w') : Owned A i w₀ w' := by
  induction hb with
  | refl => exact h
  | tail _ hb ih =>
    cases hb with
    | other hs hc hk => exact ih.keep hs hc hk
    | quiet hm =>
      have hkept := hm.kindKept (k := .accounts)
      cases hm with
      | @load k b x _ hc hs hb hk hx =>
        by_cases hka : k = .accounts
        · subst hka
          exact ih.load hc hs hb hk hx
        · exact ih.keep rfl (by rw [Lib.Conf.cash_load, if_neg (Ne.symm hka)]) hkept
      | put => exact ih.keep rfl rfl hkept
      | push => exact ih.keep rfl rfl hkept
      | reap => exact ih.keep rfl rfl hkept

end Owned

/-- An object is overwritten, an account with such a login; the one it was does not matter. -/
theorem OnlyWritten.edit (h : OnlyWritten A i w₀ w)
    (he : ∀ p ∈ w.cash .accounts, ∃ b x, w.heap.get p = some ⟨some b, x⟩ ∧ b.isExist = true ∧ x.kind = .accounts)
    {p : ℕ} {b b' : IFromDB} {x x' : Fields} (hp : w.heap.get p = some ⟨some b, x⟩)
    (hc : ∀ q c a, w.cached .accounts i = some q → q ≠ p → w.heap.get q = some ⟨c, .account a⟩ → A a.login)
    (hid : b'.id = b.id) (hb : b'.isExist = b.isExist) (hk : x'.kind = x.kind)
    (hA : ∀ a, x' = .account a → A a.login) : Owned A i w₀ (w.put p ⟨some b', x'⟩) := by
  have hget : ∀ q, (w.put p ⟨some b', x'⟩).heap.get q = if q = p then some ⟨some b', x'⟩ else w.heap.get q :=
    Lib.Conf.get_put hp
  have hids : (w.put p ⟨some b', x'⟩).idOf = w.idOf := by
    funext q
    simp only [Lib.Conf.idOf, hget]
    split_ifs with hq
    · simp [hq, hp, hid]
    · rfl
  refine ⟨h.congr rfl, fun q hq => ?_, fun q c a hq hg => ?_⟩
  · obtain ⟨c, y, hg, hc, hy⟩ := he q hq
    by_cases hqp : q = p
    · subst hqp
      obtain ⟨rfl, rfl⟩ : b = c ∧ x = y := by simpa [hp] using hg
      exact ⟨b', x', by rw [hget, if_pos rfl], hb.trans hc, hk.trans hy⟩
    · exact ⟨c, y, by rw [hget, if_neg hqp, hg], hc, hy⟩
  · have hq' : w.cached .accounts i = some q := by
      simpa only [Lib.Conf.cached, hids, Lib.Conf.cash_put] using hq
    rw [hget] at hg
    split_ifs at hg with hqp
    · exact hA a (Obj.mk.inj (Option.some.inj hg)).2
    · exact hc q c a hq' hqp hg

/-- The account's object is stored. -/
theorem OnlyWritten.updated (h : OnlyWritten A i w₀ w) {acc : ℕ} {r : Bool} {c : Option IFromDB} {a : Account}
    (hacc : w.heap.get acc = some ⟨c, .account a⟩) (hid : w.idOf acc = some i) (ha : A a.login)
    (hu : run (Controller.update .accounts acc) w = .ok (r, w')) : OnlyWritten A i w₀ w' := by
  obtain ⟨b, x, d, hp, -, hd, -, -, -, -, -, hst⟩ := update_effect hu
  obtain ⟨rfl, rfl⟩ : some b = c ∧ x = .account a := by simpa [hp] using hacc
  obtain rfl : b.id = i := Option.some.inj ((Lib.Conf.idOf_of_get hp).symm.trans hid)
  refine ⟨fun o ho => ?_, fun d' hd' => ?_⟩
  · rw [hst, if_neg fun h => ho h.2]
    exact h.others o ho
  · rw [hst, if_pos ⟨rfl, rfl⟩] at hd'
    obtain rfl := Option.some.inj hd'
    obtain ⟨a', ha', hl⟩ := isAccount_of_toDoc hd b.id
    exact ⟨a', ha', hl ▸ ha⟩

theorem Owned.updated (h : Owned A i w₀ w) {acc : ℕ} {r : Bool} {c : Option IFromDB} {a : Account}
    (hacc : w.heap.get acc = some ⟨c, .account a⟩) (hid : w.idOf acc = some i) (ha : A a.login)
    (hu : run (Controller.update .accounts acc) w = .ok (r, w')) : Owned A i w₀ w' := by
  have hw := h.toOnlyWritten.updated hacc hid ha hu
  obtain ⟨b, x, d, hd, hp, -, -, -, rfl⟩ := run_update_iff.mp hu
  obtain ⟨-, rfl⟩ : some b = c ∧ x = .account a := by simpa [hp] using hacc
  have ho : Owned A i w₀ (w.put acc ⟨some (b.withDoc d), .account a⟩) :=
    h.toOnlyWritten.edit h.entry hp (fun q c a' hq _ => h.cached q c a' hq) rfl rfl rfl fun a' ha' => by
      obtain rfl := Fields.account.inj ha'
      exact ha
  exact ⟨hw, ho.entry, ho.cached⟩

/-- The account is given an info and stored again. -/
theorem OnlyWritten.attached (h : OnlyWritten A i w₀ w) {acc res : ℕ} {c : Option IFromDB} {a : Account}
    (hacc : w.heap.get acc = some ⟨c, .account a⟩) (hid : w.idOf acc = some i) (ha : A a.login)
    (hatt : Attached w acc res w') : OnlyWritten A i w₀ w' := by
  obtain ⟨ba, br, a₀, x, hp, -, -, hgiven⟩ := hatt.given
  obtain ⟨rfl, rfl⟩ : some ba = c ∧ a₀ = a := by simpa [hp] using hacc
  obtain rfl : ba.id = i := Option.some.inj ((Lib.Conf.idOf_of_get hp).symm.trans hid)
  obtain ⟨da, hda, hst, -⟩ := hgiven.docs
  refine ⟨fun o ho => ?_, fun d' hd' => ?_⟩
  · rw [hst, if_neg fun h => ho h.2]
    exact h.others o ho
  · rw [hst, if_pos ⟨rfl, rfl⟩] at hd'
    obtain rfl := Option.some.inj hd'
    obtain ⟨a', ha', hl⟩ := isAccount_of_toDoc hda ba.id
    exact ⟨a', ha', hl ▸ ha⟩

/-- An account keeps its id and its login beside the accounts. -/
theorem Besides.account (hb : Besides .accounts w w') {p : ℕ} {b : IFromDB} {a : Account}
    (hp : w.heap.get p = some ⟨some b, .account a⟩) (he : b.isExist = true) :
    ∃ b' a', w'.heap.get p = some ⟨some b', .account a'⟩ ∧ b'.id = b.id ∧ b'.isExist = true ∧ a'.login = a.login := by
  induction hb with
  | refl => exact ⟨b, a, hp, rfl, he, rfl⟩
  | tail _ hb ih =>
    obtain ⟨b₁, a₁, hp₁, hid₁, he₁, hl₁⟩ := ih
    obtain ⟨b₂, x₂, hp₂, hcore, hbare⟩ := hb.kept p b₁ _ hp₁ he₁ rfl
    obtain ⟨a₂, rfl⟩ := exists_account_of_kind (Fields.kind_of_bare hbare)
    simp only [IFromDB.core, Prod.mk.injEq] at hcore
    exact ⟨b₂, a₂, hp₂, hcore.1.trans hid₁, hcore.2.2.trans he₁, (login_of_bare hbare).trans hl₁⟩

/-- A new info is given to the account its document names. -/
theorem Owned.infoAdded (h : Owned A i w₀ w) (hw : Sound w) {id : Oid} {t : AccountType} {r : Option ℕ}
    (hd : ∀ d o, w.stored .infos id = some d → d.get? "Owner" = some (.oid o) → o = i) (ha : InfoAdded w id t r w') :
    OnlyWritten A i w₀ w' := by
  -- the owner is the cached account, so it has such a login when it is stored
  have owner : ∀ {c : DBClass} {d : Doc} {o : Obj} {g : Getter} {acc : ℕ} {w₁ w₂ : World}, w.stored .infos id = some d →
      c.ofDoc d = .ok o → (w.push o).refOf w.heap.next g.field = some .null → g.key = "Owner" → g.kind = .accounts →
      run (g.call w.heap.next) (w.push o) = .ok (some acc, w₁) → Besides .accounts w₁ w₂ →
      Attached w₂ acc w.heap.next w' → OnlyWritten A i w₀ w' := by
    intro c d o g acc w₁ w₂ hs ho hn hkey hk hgo hb₂ hatt
    have q₁ := quiet_getOwner hk (sound_push hw o) hgo
    have o₁ := (h.besides (.push w o)).besides (.of_quiet q₁)
    have got := run_getter (sound_push hw o) hgo
    obtain ⟨b, x, oid, hnew, hdoc, hcached⟩ := got.cached_of_null (sound_push hw o) hn
    obtain ⟨y, j, hy, hj, rfl⟩ := ofDoc_eq_ok.mp ho
    obtain ⟨rfl, rfl⟩ : _ = b ∧ y = x := by simpa using hnew
    obtain rfl := hd d oid hs (hkey ▸ hdoc)
    rw [hk] at hcached
    obtain ⟨b, x, hacc, he, hx⟩ := o₁.entry acc (Lib.Conf.cached_mem hcached)
    obtain ⟨a, rfl⟩ := exists_account_of_kind hx
    have hlogin := o₁.cached acc _ a hcached hacc
    have hid : b.id = oid := Option.some.inj ((Lib.Conf.idOf_of_get hacc).symm.trans (Lib.Conf.cached_idOf hcached))
    obtain ⟨b₂, a₂, hacc₂, hid₂, -, hl₂⟩ := hb₂.account hacc he
    exact (o₁.besides hb₂).attached hacc₂ ((Lib.Conf.idOf_of_get hacc₂).trans (by rw [hid₂, hid])) (hl₂ ▸ hlogin) hatt
  cases ha with
  | admin => exact h.toOnlyWritten
  | student hs ho hg he ha =>
    have q₁ := quiet_getOwner (g := .getStudentOwner) rfl (sound_push hw _) hg
    exact owner (g := .getStudentOwner) hs ho (refOf_ofDoc ho (.inr rfl)) rfl rfl hg
      (Besides.grouped (by simp) (by simp) he (q₁.sound (sound_push hw _))) ha
  | teacher hs ho hg ha => exact owner (g := .getTeacherOwner) hs ho (refOf_ofDoc_teacher ho) rfl rfl hg .refl ha

/-- The info of a form is given to its account. -/
theorem Owned.infoGiven (h : Owned A i w₀ w) (hw : Sound w) {info? : Option ℕ} {acc : ℕ}
    (hid : ∀ b x, w.heap.get acc = some ⟨some b, x⟩ → b.id = i) (hg : InfoGiven w info? acc w') :
    OnlyWritten A i w₀ w' := by
  rcases hg with ⟨-, rfl⟩ | ⟨info, t, r, w₁, -, h₁, -, h₂⟩
  · exact h.toOnlyWritten
  have q₁ := quiet_setRef hw h₁
  have hw₁ := q₁.sound hw
  obtain ⟨x, d, he, hk, hd, -, hadd⟩ := run_infosAdd h₂
  have hpost : Owned A i w₀ (w₁.post .infos info d) :=
    (h.besides (.of_quiet q₁)).besides (.post (by simp) he d)
  refine hpost.infoAdded (hw₁.post he d) (fun d' o hd' ho => ?_) hadd
  obtain rfl := Option.some.inj (stored_post_new.symm.trans hd')
  -- the owner in the document is the account of the form
  have ho' : d.get? "Owner" = some (.oid o) := by simpa [Collection.withId] using ho
  obtain ⟨f, p, b, y, hf, hp, hb, -, rfl⟩ := oid_of_toDoc hd ho'
  obtain rfl : f = .owner := by cases f <;> first | rfl | exact absurd hf (by decide)
  obtain ⟨oi, v, oa, ba, xa, hoi, hv, -, -, hacc, rfl⟩ := run_setRef_some_iff.mp h₁
  rw [Lib.Conf.get_put hacc] at he hb
  by_cases hne : info = acc
  · rw [if_pos hne] at he
    cases he
  rw [if_neg hne, Lib.Conf.get_put hoi, if_pos rfl, Option.some.injEq] at he
  rw [Lib.Conf.get_put hoi, if_neg (Ne.symm hne)] at hacc
  obtain rfl : acc = p := by
    have hx : x.ref .owner = some (.to acc) :=
      (congrArg (fun o : Obj => o.fields.ref .owner) he).symm.trans (Fields.ref_setRef hv _)
    simpa [hx] using hp
  rw [if_pos rfl, Option.some.injEq, Obj.mk.injEq, Option.some.injEq] at hb
  rw [← hb.1]
  exact hid ba xa hacc

end Owned

/-! ### The commands -/

section Commands

/-- The invariant of the runs: logins are unique, every account can be read, and every id was given out. -/
structure LoginInvariant (w : World) : Prop where
  sound : Sound w
  issued : Issued w
  unique : LoginsUnique w
  account : ∀ o d, w.stored .accounts o = some d → ∃ a, d.IsAccount a

/-- One account is written, with a login that no other has. -/
theorem OnlyWritten.unique {i : Oid} {w₀ : World} (h : OnlyWritten (w₀.LoginFree i) i w₀ w) (hu : LoginsUnique w₀) :
    LoginsUnique w := by
  have free : ∀ {o d d' s}, o ≠ i → w.stored .accounts i = some d → w.stored .accounts o = some d' →
      d.get? "Login" = some (.string s) → d'.get? "Login" ≠ some (.string s) := by
    intro o d d' s ho hd hd' hs hs'
    obtain ⟨a, ha, hA⟩ := h.login d hd
    obtain rfl : a.login = s := by simpa using ha.hasLogPass.1.symm.trans hs
    exact hA o d' ho (h.others o ho ▸ hd') hs'
  intro o o' d d' s hd hd' hs hs'
  by_cases ho : o = i
  · subst ho
    by_contra hne
    exact free (Ne.symm hne) hd hd' hs hs'
  · by_cases ho' : o' = i
    · subst ho'
      exact absurd hs (free ho hd' hd hs')
    · exact hu o o' d d' s (h.others o ho ▸ hd) (h.others o' ho' ▸ hd') hs hs'

theorem InfoGiven.sound {info? : Option ℕ} {acc : ℕ} (h : InfoGiven w info? acc w') (hw : Sound w) : Sound w' := by
  rcases h with ⟨-, rfl⟩ | ⟨info, t, r, w₁, -, h₁, -, h₂⟩
  · exact hw
  · exact Acts.sound (does_infosAdd (K := fun _ => True) trivial trivial trivial _ _ _ _ _ h₂) ((quiet_setRef hw h₁).sound hw)

theorem InfoDeleted.besides {info? : Option ℕ} (h : InfoDeleted w info? w') (hw : Sound w) :
    Besides .accounts w w' ∧ Sound w' ∧ ∀ p b' x, w'.heap.get p = some ⟨some b', x⟩ → w.idOf p = some b'.id := by
  rcases h with ⟨-, rfl⟩ | ⟨info, b, r, -, -, h⟩
  · exact ⟨.refl, hw, fun p b' x hp => Lib.Conf.idOf_of_get hp⟩
  · have hd := run_delete hw h
    refine ⟨.deleted (by simp) hd hw, hd.sound hw, fun p b' x hp => ?_⟩
    obtain ⟨b₀, hp₀, hid⟩ := hd.back hp
    rw [Lib.Conf.idOf_of_get hp₀, hid]

theorem Issued.looks (h : Issued w) (hl : Looks w w') : Issued w' := by
  induction hl with
  | refl => exact h
  | tail _ hl ih =>
    cases hl with
    | quiet hm => exact Registered.micro ih hm
    | listed => exact Registered.setChanged ih _

/-- A new account has the id it was stored under and the login of its object. -/
theorem owned_add {e : ℕ} {r : Option ℕ} {a : Account} (hw : Sound w) (hi : Issued w) (hA : A a.login)
    (he : w.heap.get e = some ⟨none, .account a⟩) (h : run (Controller.add .accounts e) w = .ok (r, w')) :
    Owned A w.env.nextOid w w' ∧ Sound w' ∧ ∀ acc b x, r = some acc → w'.heap.get acc = some ⟨some b, x⟩ → b.id = w.env.nextOid := by
  obtain ⟨x, d, o, he', -, hd, -, ho, hr, rfl⟩ := run_add_iff.mp h
  obtain ⟨-, rfl⟩ := Obj.mk.inj (Option.some.inj (he'.symm.trans he))
  obtain ⟨a', ha', hl⟩ := isAccount_of_toDoc hd w.env.nextOid
  have hpost : Sound (w.post .accounts e d) := hw.post he d
  obtain ⟨y, j, hy, hj, rfl⟩ := ofDoc_eq_ok.mp ho
  obtain rfl : Fields.account a' = y := Except.ok.inj (ha'.symm.trans hy)
  obtain rfl : w.env.nextOid = j := by simpa [Collection.withId] using hj
  set b : IFromDB := IFromDB.own 1 { doc := Collection.withId w.env.nextOid d, id := w.env.nextOid } with hb
  have hstored : ∀ j, ((w.post .accounts e d).load .accounts ⟨some b, .account a'⟩).stored .accounts j =
      if j = w.env.nextOid then some (Collection.withId w.env.nextOid d) else w.stored .accounts j := by
    intro j
    simpa using stored_post (w := w) (k := .accounts) (e := e) (d := d) .accounts j
  have hnone : (w.post .accounts e d).cached .accounts b.id = none := by
    rw [Lib.Conf.cached_eq_none]
    intro p hp hid
    obtain ⟨c, z, hg, -⟩ := hpost.entry .accounts p hp
    rw [Lib.Conf.idOf_of_get hg, Option.some.injEq] at hid
    rw [heap_post, Lib.Heap.get_free] at hg
    split_ifs at hg
    exact (hi.lt hg).ne hid
  have hnew : ((w.post .accounts e d).load .accounts ⟨some b, .account a'⟩).heap.get (w.post .accounts e d).heap.next =
      some ⟨some b, .account a'⟩ := Lib.Heap.get_push_next _ _
  have hs : Sound ((w.post .accounts e d).load .accounts ⟨some b, .account a'⟩) := hpost.load rfl rfl
  refine ⟨⟨⟨fun o hne => ?_, fun d' hd' => ?_⟩, hs.entry .accounts, fun q c a₁ hq hg => ?_⟩, hs, fun acc c z hacc hg => ?_⟩
  · exact (hstored o).trans (if_neg hne)
  · obtain rfl := Option.some.inj (((hstored _).trans (if_pos rfl)).symm.trans hd')
    exact ⟨a', ha', hl ▸ hA⟩
  · have hc := (cached_load hpost (.account a') hnone .accounts w.env.nextOid).trans (if_pos ⟨rfl, rfl⟩)
    obtain rfl := Option.some.inj (hc.symm.trans hq)
    obtain ⟨-, hg⟩ := Obj.mk.inj (Option.some.inj (hnew.symm.trans hg))
    obtain rfl := Fields.account.inj hg
    exact hl ▸ hA
  · have hnext : (w.post .accounts e d).heap.next = w.heap.next := Lib.Heap.next_free _ _
    obtain rfl := Option.some.inj (hr.symm.trans hacc)
    obtain ⟨hc, -⟩ := Obj.mk.inj (Option.some.inj (hnew.symm.trans (hnext ▸ hg)))
    rw [← Option.some.inj hc]
    rfl

/-- One written account, with a login of its own, keeps the invariant. -/
theorem LoginInvariant.written {i : Oid} (h : LoginInvariant w) (ho : OnlyWritten (w.LoginFree i) i w w') (hs : Sound w')
    (hi : Issued w') : LoginInvariant w' := by
  refine ⟨hs, hi, ho.unique h.unique, fun o d hd => ?_⟩
  by_cases hoi : o = i
  · subst hoi
    obtain ⟨a, ha, -⟩ := ho.login d hd
    exact ⟨a, ha⟩
  · exact h.account o d (ho.others o hoi ▸ hd)

/-- A command that stores no new document of an account keeps the invariant. -/
theorem LoginInvariant.shrunk (h : LoginInvariant w)
    (ho : ∀ o d, w'.stored .accounts o = some d → w.stored .accounts o = some d) (hs : Sound w') (hi : Issued w') :
    LoginInvariant w' :=
  ⟨hs, hi, fun o o' d d' s hd hd' => h.unique o o' d d' s (ho o d hd) (ho o' d' hd'), fun o d hd => h.account o d (ho o d hd)⟩

/-- What the administrator's form adds has the form's login. -/
theorem LoginInvariant.addNewAccount {win win' : AdminWindow} (h : LoginInvariant w)
    (hg : ∀ o d, w.stored .accounts o = some d → d.get? "Login" ≠ some (.string win.accountDisp.editLogin))
    (hr : run win.addNewAccount w = .ok (win', w')) :
    OnlyWritten (w.LoginFree w.env.nextOid) w.env.nextOid w w' := by
  obtain ⟨data, w₁, acc, w₂, w₃, h₁, h₂, hgiven, h₄⟩ := run_addNewAccount hr
  obtain ⟨hdata, hlook⟩ := run_getNewAccount h.sound h₁
  have l₁ : Looks w w₁ := (Looks.push w _).trans hlook
  obtain ⟨x, he, hx⟩ := Looks.plain hlook (Lib.Heap.get_push_next w.heap _)
  rw [← hdata] at he
  obtain ⟨a, rfl⟩ := exists_account_of_kind (Fields.kind_of_bare hx)
  have hA : w.LoginFree w.env.nextOid a.login := by
    rw [login_of_bare hx]
    exact fun o d _ hd => hg o d hd
  have hw₁ := Looks.sound l₁ h.sound
  have hnext : w₁.env.nextOid = w.env.nextOid := by rw [Looks.env l₁]
  obtain ⟨h₂, hw₂, hid⟩ := owned_add hw₁ (Issued.looks h.issued l₁) hA he h₂
  rw [hnext] at h₂ hid
  have h₂' : Owned (w.LoginFree w.env.nextOid) w.env.nextOid w w₂ :=
    ⟨⟨fun o ho => (h₂.others o ho).trans (by rw [Looks.stored l₁]), h₂.login⟩, h₂.entry, h₂.cached⟩
  have h₃ := h₂'.infoGiven hw₂ (fun b x => hid acc b x rfl) hgiven
  have tail : Views (do AdminWindow.updateAccountsTable; win.updateGroupsScrean none) :=
    .bind views_updateAccountsTable fun _ => views_updateGroupsScrean win none
  exact h₃.congr (by rw [Looks.stored (tail.looks (hgiven.sound hw₂) h₄)])

/-- What the administrator's form updates has the form's login, or that of the object the cache has for it. -/
theorem LoginInvariant.updateAccount {win win' : AdminWindow} (h : LoginInvariant w)
    (hg : ∀ acc i, win.accountDisp.acc = some acc → w.idOf acc = some i → w.LoginFree i win.accountDisp.editLogin ∧
      (win.accountDisp.editType ≠ .admin → ∀ q c a, w.cached .accounts i = some q → q ≠ acc →
        w.heap.get q = some ⟨c, .account a⟩ → w.LoginFree i a.login))
    (hr : run win.updateAccount w = .ok (win', w')) : ∃ i, OnlyWritten (w.LoginFree i) i w w' := by
  obtain ⟨data, w₁, r, w₂, w₃, w₄, h₁, h₂, hdel, hgiven, h₅⟩ := run_updateAccount hr
  obtain ⟨c, a, hacc, hget, hinfo, hlook⟩ := run_getAccountForDBUpdate h.sound h₁
  set acc := data.1
  set a' : Account := { a with
    login := win.accountDisp.editLogin, password := win.accountDisp.editPassword, accountType := win.accountDisp.editType }
    with ha'
  -- the object that is updated is the one the form wrote
  obtain ⟨b₁, x₁, d₁, hget₁, -⟩ := update_effect h₂
  have hput : (w.put acc ⟨c, .account a'⟩).heap.get acc = some ⟨c, .account a'⟩ := by
    rw [Lib.Conf.get_put hget, if_pos rfl]
  obtain ⟨o, ho, hsame⟩ := Looks.back hlook hget₁ (Lib.Heap.lt_next hput)
  obtain rfl := Option.some.inj (hput.symm.trans ho)
  obtain ⟨b, rfl⟩ : ∃ b, c = some b := by
    cases c with
    | none => exact absurd hsame.core (by simp)
    | some b => exact ⟨b, rfl⟩
  obtain ⟨b₂, x₂, hobj, hcore, hbare⟩ := hsame.exists_eq
  obtain ⟨rfl, rfl⟩ : b₁ = b₂ ∧ x₁ = x₂ := by simpa using hobj
  obtain ⟨a₁, rfl⟩ := exists_account_of_kind (Fields.kind_of_bare hbare)
  simp only [IFromDB.core, Prod.mk.injEq] at hcore
  obtain ⟨hfree, htwin⟩ := hg acc b.id hacc (Lib.Conf.idOf_of_get hget)
  have hlogin : w.LoginFree b.id a₁.login := by
    rw [login_of_bare hbare]
    exact hfree
  have hid₁ : w₁.idOf acc = some b.id := by rw [Lib.Conf.idOf_of_get hget₁, hcore.1]
  have hself : OnlyWritten (w.LoginFree b.id) b.id w w := by
    refine ⟨fun _ _ => rfl, fun d hd => ?_⟩
    obtain ⟨a₀, ha₀⟩ := h.account b.id d hd
    exact ⟨a₀, ha₀, fun o d' hne hd' hs => hne (h.unique o b.id d' d _ hd' hd hs ha₀.hasLogPass.1)⟩
  have hw₁ : Sound w₁ := Acts.sound (does_getAccountForDBUpdate (K := fun _ => True) _ _ _ _ h₁) h.sound
  have hw₂ : Sound w₂ := (steady_update h₂).sound hw₁
  obtain ⟨hbeside, hw₃, hback⟩ := hdel.besides hw₂
  have htail : w'.stored = w₄.stored := Looks.stored (views_updateAccountsTable.looks (hgiven.sound hw₃) h₅)
  refine ⟨b.id, OnlyWritten.congr (w := w₄) ?_ (by rw [htail])⟩
  cases hi : data.2.2 with
  | none =>
    rcases hgiven with ⟨-, hw₄⟩ | ⟨info, t, r, v, hi', -⟩
    · subst hw₄
      have h₁' : OnlyWritten (w.LoginFree b.id) b.id w w₁ := hself.congr (by rw [Looks.stored hlook]; rfl)
      exact (h₁'.updated hget₁ hid₁ hlogin h₂).congr (Besides.stored hbeside)
    · simp [hi] at hi'
  | some info =>
    have hkept : Owned (w.LoginFree b.id) b.id w (w.put acc ⟨some b, .account a'⟩) :=
      hself.edit (h.sound.entry .accounts) hget (htwin (hinfo (by simp [hi]))) rfl rfl rfl fun a₂ ha₂ => by
        obtain rfl := Fields.account.inj ha₂
        exact hfree
    have h₁' := hkept.besides (.of_looks hlook)
    have h₃ := (h₁'.updated hget₁ hid₁ hlogin h₂).besides hbeside
    refine h₃.infoGiven hw₃ (fun b' x hb' => ?_) hgiven
    have hid := hback acc b' x hb'
    rw [idOf_update h₂, hid₁] at hid
    exact (Option.some.inj hid).symm

/-- What is deleted was stored. -/
theorem stored_deleteAccount {win win' : AdminWindow} (hw : Sound w) (hr : run win.deleteAccount w = .ok (win', w'))
    {o : Oid} {d : Doc} (hd : w'.stored .accounts o = some d) : w.stored .accounts o = some d := by
  rcases run_deleteAccount hw hr with rfl | ⟨data, info?, b, r, w₁, w₂, w₃, -, hlook, hdel, -, h₃, h₄⟩
  · exact hd
  obtain ⟨hbeside, hw₂, -⟩ := hdel.besides (Looks.sound hlook hw)
  have hdeleted := run_delete hw₂ h₃
  have tail : Views (do AdminWindow.updateAccountsTable; win.setAccountToDisplayWidget none) :=
    .bind views_updateAccountsTable fun _ => views_setAccountToDisplayWidget win none
  rw [Looks.stored (tail.looks (hdeleted.sound hw₂) h₄)] at hd
  obtain ⟨p, b', x, db, -, -, rfl, hdb⟩ := hdeleted.effect
  rw [Lib.Conf.stored_setEnv, hdb] at hd
  split_ifs at hd
  rw [← Looks.stored hlook, ← Besides.stored hbeside]
  exact hd

theorem run_isAccountExist_iff {l : LogPass} {b : Bool} :
    run (AccountsController.isAccountExist l) w = .ok (b, w') ↔ (w.account? l).isSome = b ∧ w = w' := by
  simp only [AccountsController.isAccountExist, run_bind_iff, run_findOne_iff, run_pure_iff]
  constructor
  · rintro ⟨_, _, ⟨rfl, rfl⟩, rfl, rfl⟩
    exact ⟨rfl, rfl⟩
  · rintro ⟨rfl, rfl⟩
    exact ⟨_, w, ⟨rfl, rfl⟩, rfl, rfl⟩

theorem account?_isSome {l : LogPass} :
    (w.account? l).isSome ↔ ∃ o d, w.stored .accounts o = some d ∧ d.HasLogPass l := by
  simp only [Lib.Conf.account?, List.find?_isSome, Doc.fits_logPass, Collection.mem_docs]
  constructor
  · rintro ⟨d, ⟨o, hd⟩, hl⟩
    exact ⟨o, d, hd, hl⟩
  · rintro ⟨o, d, hd, hl⟩
    exact ⟨d, ⟨o, hd⟩, hl⟩

/-- A sign-up stores an account when none has the login and the password, and nothing otherwise. -/
theorem LoginInvariant.signup {wStud : StudentWindow} {login password : String} {r : StartWindow.Opened}
    (h : LoginInvariant w)
    (hg : (∃ o d, w.stored .accounts o = some d ∧ d.get? "Login" = some (.string login)) →
      ∃ o d, w.stored .accounts o = some d ∧ d.HasLogPass { login, password })
    (hr : run (StartWindow.logIn .signup wStud login password) w = .ok (r, w')) :
    OnlyWritten (w.LoginFree w.env.nextOid) w.env.nextOid w w' := by
  simp only [StartWindow.logIn, run_bind_iff, run_isAccountExist_iff] at hr
  obtain ⟨b, _, ⟨hb, rfl⟩, hr⟩ := hr
  cases b with
  | true =>
    simp only [if_true, run_pure_iff] at hr
    obtain ⟨-, rfl⟩ := hr
    refine ⟨fun _ _ => rfl, fun d hd => ?_⟩
    have hn : w.stored .accounts w.env.nextOid = none := w.env.get?_nextOid .accounts
    simp [hn] at hd
  | false =>
    simp only [Bool.false_eq_true, if_false, run_bind_iff, run_newObj_iff, run_pure_iff] at hr
    obtain ⟨_, _, ⟨rfl, rfl⟩, r', w₂, h₂, -, rfl⟩ := hr
    -- a stored account with the login would have been found, by the guard
    have hfree : w.LoginFree w.env.nextOid login := by
      intro o d _ hd hl
      have hex := account?_isSome.mpr (hg ⟨o, d, hd, hl⟩)
      rw [hb] at hex
      cases hex
    have hi : Issued (w.push ⟨none, .account { login, password, accountType := .student }⟩) :=
      Issued.looks h.issued (Looks.push w _)
    obtain ⟨ho, -⟩ := owned_add (sound_push h.sound _) hi hfree (Lib.Heap.get_push_next _ _) h₂
    exact ⟨ho.others, ho.login⟩

/-- Every stored account is found by its login and password, and a log-in opens it. -/
theorem LoginInvariant.logInsOpen (h : LoginInvariant w) : LogInsOpen w := by
  intro l o d hd hl
  have hex := account?_isSome.mpr ⟨o, d, hd, hl⟩
  refine ⟨run_isAccountExist_iff.mpr ⟨hex, rfl⟩, ?_⟩
  obtain ⟨d', hd'⟩ := Option.isSome_iff_exists.mp hex
  obtain ⟨o', ho'⟩ := Collection.mem_docs.mp (List.mem_of_find?_eq_some hd')
  have hl' : d'.HasLogPass l := Doc.fits_logPass.mp (List.find?_some hd')
  obtain rfl : o' = o := h.unique o' o d' d _ ho' hd hl'.1 hl.1
  obtain ⟨a, ha⟩ := h.account o' d' ho'
  have hof : DBClass.accountDB.ofDoc d' = .ok ⟨some { doc := d', id := o' }, .account a⟩ :=
    ofDoc_eq_ok.mpr ⟨_, o', ha, (w.env.coll .accounts).ids o' d' ho', rfl⟩
  refine ⟨_, _, run_findFullAccount_iff.mpr ⟨d', _, hd', hof, rfl, rfl⟩, ?_⟩
  exact Lib.Conf.idOf_of_get (b := { doc := d', id := o' }) (x := .account a) (Lib.Heap.get_push_next w.heap _)

end Commands

/-! ### Every run -/

/-- Every login that is written is no other account's: the one of a sign-up is new or comes with its password, the one
on the form is no other's, and so is the login of the object that the cache has for an account that gets a new info. -/
def Event.KeepsLogins (e : Event) (c : Client) : Prop :=
  match e with
  | .logIn .signup login password _ =>
    (∃ o d, c.world.stored .accounts o = some d ∧ d.get? "Login" = some (.string login)) →
      ∃ o d, c.world.stored .accounts o = some d ∧ d.HasLogPass { login, password }
  | .slot .addNewAccount => ∀ o d, c.world.stored .accounts o = some d →
    d.get? "Login" ≠ some (.string c.win.accountDisp.editLogin)
  | .slot .updateAccount => ∀ acc i, c.win.accountDisp.acc = some acc → c.world.idOf acc = some i →
    c.world.LoginFree i c.win.accountDisp.editLogin ∧
      (c.win.accountDisp.editType ≠ .admin → ∀ q b a, c.world.cached .accounts i = some q → q ≠ acc →
        c.world.heap.get q = some ⟨b, .account a⟩ → c.world.LoginFree i a.login)
  | .call a => ¬ a.writes .accounts
  | _ => True

theorem Acts.issued {K : Kind → Prop} (h : Acts K w w') (hw : Sound w) (hi : Issued w) : Issued w' := by
  refine (h.invariant (I := fun w => Sound w ∧ Issued w) ?_ ?_ ⟨hw, hi⟩).2
  · intro a v v' _ hs ⟨hv, hi⟩
    have ho := outcome_of_step hv hs
    exact ⟨ho.sound hv, ho.issued hv hi⟩
  · rintro v v' hs ⟨hv, hi⟩
    refine ⟨hs.sound hv, ?_⟩
    cases hs with
    | mk ho hk hc hf hr => exact Registered.put hi ho rfl (Fields.kind_of_cls hc)

theorem LoginInvariant.step {e : Event} {c c' : Client} (h : LoginInvariant c.world) (hg : e.KeepsLogins c)
    (hs : e.Step c c') : LoginInvariant c'.world := by
  rcases acts_of_step hs with ha | ⟨date, rfl, rfl⟩
  · have hw' := ha.sound h.sound
    have hi' := Acts.issued ha h.sound h.issued
    by_cases hk : e.writes .accounts
    · cases e with
      | slot s =>
        cases s with
        | addNewAccount => exact h.written (h.addNewAccount hg hs) hw' hi'
        | updateAccount =>
          obtain ⟨i, ho⟩ := h.updateAccount hg hs
          exact h.written ho hw' hi'
        | deleteAccount => exact h.shrunk (fun o d hd => stored_deleteAccount h.sound hs hd) hw' hi'
        | _ => simp [Event.writes, Slot.writes] at hk
      | logIn state login password date =>
        cases state with
        | signup =>
          obtain ⟨-, r, hr⟩ := hs
          exact h.written (h.signup hg hr) hw' hi'
        | login => exact hk.elim
      | call a => exact absurd hk hg
      | input i => exact hk.elim
      | restart date => exact hk.elim
    · exact h.shrunk (fun o d hd => by rwa [Acts.stored ha h.sound hk] at hd) hw' hi'
  · exact ⟨sound_start _, registered_start _, h.unique, h.account⟩

/-- From a database without accounts, logins stay unique and every log-in opens the account it names, in every run that
writes no login of another account. -/
theorem loginsUnique_of_run {db : Database} {date : QDate} {es : List Event} {c : Client}
    (h0 : ∀ o, db.get? .accounts o = none) (hr : Lib.Run Event.Step Event.KeepsLogins (Client.start db date) es c) :
    LoginsUnique c.world ∧ LogInsOpen c.world := by
  have hnone : ∀ {o d}, (Client.start db date).world.stored .accounts o ≠ some d := fun hd => by
    cases (h0 _).symm.trans hd
  have h : LoginInvariant c.world :=
    hr.invariant (I := fun c => LoginInvariant c.world)
      ⟨sound_start db, registered_start db, fun _ _ _ _ _ hd => absurd hd hnone, fun _ _ hd => absurd hd hnone⟩
      fun e c c' h hg hs => h.step hg hs
  exact ⟨h.unique, h.logInsOpen⟩

/-- A check of the condition, for what sign-ups and the form do to accounts the cache has one object of. -/
def Event.keepsLogins? (e : Event) (c : Client) : Bool :=
  match e with
  | .logIn .signup login _ _ => c.world.loginFree? none login
  | .slot .addNewAccount => c.world.loginFree? none c.win.accountDisp.editLogin
  | .slot .updateAccount => c.win.accountDisp.acc.all fun acc =>
    (c.world.idOf acc).all fun i => c.world.loginFree? (some i) c.win.accountDisp.editLogin ∧ c.world.cached .accounts i = some acc
  | .slot (.setAccountToDisplayWidget _) => true
  | .input _ => true
  | _ => false

theorem Event.keepsLogins_of_keepsLogins? {e : Event} {c : Client} (h : e.keepsLogins? c = true) : e.KeepsLogins c := by
  cases e with
  | logIn state login password date =>
    cases state with
    | signup =>
      rintro ⟨o, d, hd, hl⟩
      exact absurd hl (loginFree_of_loginFree? h (by simp) hd)
    | login => trivial
  | slot s =>
    cases s with
    | addNewAccount => exact fun o d hd => loginFree_of_loginFree? h (by simp) hd
    | updateAccount =>
      intro acc i hacc hi
      simp only [Event.keepsLogins?, hacc, hi, Option.all_some, Bool.decide_and, Bool.decide_eq_true, Bool.and_eq_true,
        decide_eq_true_eq] at h
      obtain ⟨hfree, hc⟩ := h
      refine ⟨fun o d ho hd => loginFree_of_loginFree? hfree (by simpa using ho) hd, fun _ q b a hq hne => ?_⟩
      exact absurd (Option.some.inj (hq.symm.trans hc)) hne
    | setAccountToDisplayWidget => trivial
    | _ => simp [Event.keepsLogins?] at h
  | input i => trivial
  | _ => simp [Event.keepsLogins?] at h

/-- The administrator adds an account and gives it another login, then two users sign up, one of them with the first
login. -/
theorem loginsUnique_of_signups : ∃ c : Client, (c.world.env.coll .accounts).docs.map (fun d => d.get? "Login") =
    [some (.string "other"), some (.string "first"), some (.string "second")] ∧ LoginsUnique c.world ∧ LogInsOpen c.world := by
  have hplay : (Lib.playChecked Event.next? Event.keepsLogins? [.input (.type .teacher), .input (.login "first"),
      .slot .addNewAccount, .slot (.setAccountToDisplayWidget (some 2)), .input (.login "other"), .slot .updateAccount,
      .logIn .signup "first" "one" (.fromJulianDay 0), .logIn .signup "second" "two" (.fromJulianDay 0)]
        (Client.start Database.empty (.fromJulianDay 0))).any (fun c =>
          (c.world.env.coll .accounts).docs.map (fun d => d.get? "Login") =
            [some (.string "other"), some (.string "first"), some (.string "second")]) = true := by decide +kernel
  obtain ⟨c, hc, hs⟩ := Option.any_eq_true .. |>.mp hplay
  have h0 : ∀ o, Database.empty.get? .accounts o = none := fun _ => rfl
  exact ⟨c, of_decide_eq_true hs,
    loginsUnique_of_run h0 (.of_playChecked Event.step_of_next? Event.keepsLogins_of_keepsLogins? hc)⟩

/-- Two users sign up with one login and two passwords. -/
theorem not_loginsUnique_of_signups : ∃ c : Client, Lib.Run Event.Step Lib.Free (Client.start Database.empty (.fromJulianDay 0))
    [.logIn .signup "login" "first" (.fromJulianDay 0), .logIn .signup "login" "second" (.fromJulianDay 0)] c ∧
      ¬ LoginsUnique c.world := by
  have hplay : (Client.play [.logIn .signup "login" "first" (.fromJulianDay 0), .logIn .signup "login" "second" (.fromJulianDay 0)]
      (Client.start Database.empty (.fromJulianDay 0))).any (fun c =>
        ((c.world.stored .accounts 0).bind fun d => d.get? "Login") = some (.string "login") ∧
          ((c.world.stored .accounts 1).bind fun d => d.get? "Login") = some (.string "login")) = true := by decide +kernel
  obtain ⟨c, hc, hp⟩ := Option.any_eq_true .. |>.mp hplay
  obtain ⟨h₀, h₁⟩ := of_decide_eq_true hp
  obtain ⟨d₀, hd₀, hl₀⟩ := Option.bind_eq_some_iff.mp h₀
  obtain ⟨d₁, hd₁, hl₁⟩ := Option.bind_eq_some_iff.mp h₁
  refine ⟨c, Client.run_of_play hc, fun hu => ?_⟩
  exact absurd (hu 0 1 d₀ d₁ _ hd₀ hd₁ hl₀ hl₁) (by decide)

end Cbt
