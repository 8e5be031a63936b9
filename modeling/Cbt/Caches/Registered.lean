import Cbt.Caches.Records

/-! The objects outside the caches. A controller caches every object it makes,
and an object leaves the cache only when its document is deleted. So as long as
nobody logs in and only cached objects are deleted, an object that is not cached
has no stored document: nothing can be written through it, and whatever is
written is written through the cached object. -/

namespace Cbt

open Lib.Command (run_bind_iff run_pure_iff)

variable {w w' : World} {k : Kind} {pend : ℕ → Prop}

/-- An object from the database is cached, but for pending ones, or nothing is stored under its id. -/
def Registered (pend : ℕ → Prop) (w : World) : Prop := ∀ p b x, w.heap.get p = some ⟨some b, x⟩ →
  b.id < w.env.nextOid ∧ (p ∈ w.cash x.kind ∨ pend p ∨ w.stored x.kind b.id = none)

namespace Registered

/-- Every object was there before, with its id and its controller, or is cached or pending. -/
theorem back (h : Registered pend w) (hn : w.env.nextOid ≤ w'.env.nextOid) (hc : ∀ k, ∀ p ∈ w.cash k, p ∈ w'.cash k)
    (hs : w'.stored = w.stored)
    (hb : ∀ p b' x', w'.heap.get p = some ⟨some b', x'⟩ →
      (∃ b x, w.heap.get p = some ⟨some b, x⟩ ∧ b.id = b'.id ∧ x.kind = x'.kind) ∨
        b'.id < w'.env.nextOid ∧ (p ∈ w'.cash x'.kind ∨ pend p)) : Registered pend w' := by
  intro p b' x' hp
  rcases hb p b' x' hp with ⟨b, x, hp', hid, hk⟩ | ⟨hlt, hin⟩
  · obtain ⟨hlt, hin⟩ := h p b x hp'
    rw [hs, ← hid, ← hk]
    exact ⟨hlt.trans_le hn, hin.imp_left (hc _ p)⟩
  · exact ⟨hlt, hin.imp_right .inl⟩

theorem put (h : Registered pend w) {p : ℕ} {o o' : Obj} (hp : w.heap.get p = some o)
    (hid : o'.fromDB.map (·.id) = o.fromDB.map (·.id)) (hk : o'.fields.kind = o.fields.kind) :
    Registered pend (w.put p o') := by
  refine h.back le_rfl (fun _ _ hc => hc) rfl fun q b' x' hq => .inl ?_
  rw [Lib.Conf.get_put hp] at hq
  split_ifs at hq with he
  · subst he
    obtain rfl := Option.some.inj hq
    obtain ⟨_ | b, x⟩ := o
    · simp at hid
    · exact ⟨b, x, hp, by simpa using hid.symm, hk.symm⟩
  · exact ⟨b', x', hq, rfl, rfl⟩

/-- A new object may wait to be cached. -/
theorem push (h : Registered pend w) {o : Obj} (ho : ∀ b, o.fromDB = some b → b.id < w.env.nextOid ∧ pend w.heap.next) :
    Registered pend (w.push o) := by
  refine h.back le_rfl (fun _ _ hc => hc) rfl fun q b' x' hq => ?_
  rw [Lib.Conf.heap_push, Lib.Heap.get_push] at hq
  split_ifs at hq with he
  · obtain rfl := Option.some.inj hq
    subst he
    exact .inr ⟨(ho b' rfl).1, .inr (ho b' rfl).2⟩
  · exact .inl ⟨b', x', hq, rfl, rfl⟩

theorem load (h : Registered pend w) {b : IFromDB} {x : Fields} (hb : b.id < w.env.nextOid) (hk : x.kind = k) :
    Registered pend (w.load k ⟨some b, x⟩) := by
  refine h.back le_rfl (fun k' p hp => ?_) rfl fun q b' x' hq => ?_
  · rw [Lib.Conf.cash_load]
    split_ifs with he
    · exact List.mem_append_left _ (he ▸ hp)
    · exact hp
  · rw [Lib.Conf.heap_load, Lib.Heap.get_push] at hq
    split_ifs at hq with he
    · obtain ⟨rfl, rfl⟩ : b = b' ∧ x = x' := by simpa using hq
      refine .inr ⟨hb, .inl ?_⟩
      rw [Lib.Conf.cash_load, if_pos hk, he]
      simp
    · exact .inl ⟨b', x', hq, rfl, rfl⟩

theorem free (h : Registered pend w) (p : ℕ) : Registered pend (w.free p) := by
  refine h.back le_rfl (fun _ _ hc => hc) rfl fun q b' x' hq => .inl ?_
  rw [Lib.Conf.heap_free, Lib.Heap.get_free] at hq
  split_ifs at hq
  exact ⟨b', x', hq, rfl, rfl⟩

theorem setChanged (h : Registered pend w) (b : Bool) : Registered pend (w.setChanged k b) :=
  h.back le_rfl (fun _ _ hc => by simpa using hc) rfl fun _ b' x' hq => .inl ⟨b', x', hq, rfl, rfl⟩

theorem micro {L : Loads} (h : Registered pend w) (hm : Micro L w w') : Registered pend w' := by
  cases hm with
  | load hm hc hs hb hk hx => exact h.load (w.env.fresh _ _ _ hs) hk
  | put hp hs =>
    refine h.put hp ?_ (Fields.kind_of_bare hs.bare)
    have hcore := congrArg (Option.map Prod.fst) hs.core
    simpa [Option.map_map, Function.comp_def, IFromDB.core] using hcore
  | push ho => exact h.push fun b hb => by simp [ho] at hb
  | reap => exact h.free _

theorem quiet {L : Loads} (h : Registered pend w) (hq : Quiet L w w') : Registered pend w' := by
  induction hq with
  | refl => exact h
  | tail _ hm ih => exact ih.micro hm

/-! ### Writes -/

theorem update (h : Registered pend w) {el : ℕ} {r : Bool} (hu : run (Controller.update k el) w = .ok (r, w')) :
    Registered pend w' := by
  obtain ⟨b, x, d, hd, hel, rfl, hs, -, rfl⟩ := run_update_iff.mp hu
  intro q b' y hq
  obtain ⟨b₁, hq', hid⟩ : ∃ b₁, w.heap.get q = some ⟨some b₁, y⟩ ∧ b₁.id = b'.id := by
    rw [heap_refresh, Lib.Heap.get_set _ hel] at hq
    split_ifs at hq with he
    · obtain ⟨rfl, rfl⟩ : b.withDoc _ = b' ∧ x = y := by simpa using hq
      exact ⟨b, he ▸ hel, rfl⟩
    · exact ⟨b', hq, rfl⟩
  obtain ⟨hlt, hin⟩ := h q b₁ y hq'
  rw [← hid, cash_refresh, stored_refresh hd hs]
  refine ⟨hlt, hin.imp_right (Or.imp_right fun hn => ?_)⟩
  rw [if_neg, hn]
  rintro ⟨hk, he⟩
  rw [← hk, ← he, hn] at hs
  cases hs

theorem post (h : Registered pend w) {e : ℕ} (d : Doc) : Registered pend (w.post k e d) := by
  intro q b y hq
  rw [heap_post, Lib.Heap.get_free] at hq
  split_ifs at hq
  obtain ⟨hlt, hin⟩ := h q b y hq
  refine ⟨Nat.lt_succ_of_lt hlt, ?_⟩
  rw [cash_post, stored_post, if_neg fun hk => hlt.ne hk.2]
  exact hin

/-- A cached object is deleted together with its document. -/
theorem deleted (h : Registered pend w) (hw : Coherent w) {oid : Oid} (hd : Deleted w k oid w')
    (hc : w.cached k oid ≠ none) : Registered pend w' := by
  obtain ⟨p, b, x, db, hv, hp, rfl, hdb⟩ := hd.effect
  obtain ⟨p', hp'⟩ := Option.ne_none_iff_exists'.mp hc
  obtain rfl : p' = p := by simpa [Lib.Conf.victim, hp'] using hv
  have hid : b.id = oid := by simpa [Lib.Conf.idOf_of_get hp] using Lib.Conf.cached_idOf hp'
  have hk : x.kind = k := by
    obtain ⟨b₁, x₁, h₁, -, hk⟩ := hw.entry k p' (Lib.Conf.cached_mem hp')
    obtain ⟨-, rfl⟩ : b = b₁ ∧ x = x₁ := by simpa [hp] using h₁
    exact hk
  intro q b' y hq
  obtain ⟨b₁, hq', hid'⟩ := hd.back hq
  obtain ⟨hlt, hin⟩ := h q b₁ y hq'
  rw [← hid']
  refine ⟨hd.next ▸ hlt, ?_⟩
  rw [Lib.Conf.stored_setEnv, hdb, Lib.Conf.cash_setEnv, Lib.Conf.cash_setCash]
  by_cases hqp : q = p'
  · -- the object that leaves the cache has lost its document
    subst hqp
    obtain ⟨rfl, rfl⟩ : b = b₁ ∧ x = y := by simpa [hp] using hq'
    exact .inr (.inr (if_pos ⟨hk, hid⟩))
  · refine hin.imp (fun hin => ?_) (Or.imp_right fun hn => by rw [hn, ite_self])
    split_ifs with hky
    · exact List.mem_filter.mpr ⟨hky ▸ hin, by simpa using hqp⟩
    · simpa using hin

/-- The two updates of `addStudent` and `deleteStudent`, with the assignments between them. -/
theorem members (h : Registered pend w) (hw : Sound w) {this stud : ℕ} {c : Option IFromDB} {g : Group} {l : List ℕ}
    {v : Option ℕ} {n : ℤ} {w₂ w₃ w₄ : World} (hg : w.heap.get this = some ⟨c, .group g⟩)
    (h₂ : run (Controller.update .groups this) (w.put this ⟨c, .group { g with students := l }⟩) = .ok (true, w₂))
    (h₃ : run (setRef .group stud v) w₂ = .ok ((), w₃))
    (h₄ : run (Controller.update .infos stud) w₃ = .ok (true, w₄)) (h₅ : run (own stud n) w₄ = .ok ((), w')) :
    Registered pend w' := by
  have s₂ := ((steady_assignStudents hg l).trans (steady_update h₂)).sound hw
  have r₂ := (h.quiet (L := never) (quiet_assignStudents hg l)).update h₂
  exact ((r₂.quiet (quiet_setRef s₂ h₃)).update h₄).quiet (quiet_own h₅)

theorem enrolled (h : Registered pend w) (hw : Sound w) {this stud : ℕ} (he : Enrolled w this stud w') :
    Registered pend w' := by
  obtain ⟨bs, s, c, g, w₂, w₃, w₄, -, hg, h₂, h₃, h₄, h₅⟩ := he.steps
  exact h.members hw hg h₂ h₃ h₄ h₅

theorem expelled (h : Registered pend w) (hw : Sound w) {this stud : ℕ} (he : Expelled w this stud w') :
    Registered pend w' := by
  obtain ⟨bs, s, c, g, l₁, p, l₂, w₂, w₃, w₄, -, hg, -, -, -, h₂, h₃, h₄, h₅⟩ := he.steps
  exact h.members hw hg h₂ h₃ h₄ h₅

theorem grouped (h : Registered pend w) (hw : Sound w) {temp : ℕ} (hg : Grouped w temp w') : Registered pend w' := by
  cases hg with
  | none h₁ => exact h.quiet (quiet_getGroup hw h₁)
  | some h₁ h₂ he =>
    have q₁ := quiet_getGroup hw h₁
    have q₂ := quiet_getGroup (q₁.sound hw) h₂
    exact ((h.quiet q₁).quiet q₂).enrolled (q₂.sound (q₁.sound hw)) he

/-- The pending object is cached. -/
theorem attached {acc res : ℕ} {o : Oid} {c : DBClass} (h : Registered (· = res) w) (hw : Sound w)
    (hr : w.Is res o c) (hc : c.kind = .infos) (ha : Attached w acc res w') : Registered (fun _ => False) w' := by
  obtain ⟨w₁, w₂, h₁, h₂, h₃⟩ := ha.steps
  have st := (quiet_setRef hw h₁).steady.trans (steady_update h₂)
  have r₂ := (h.quiet (quiet_setRef hw h₁)).update h₂
  refine Registered.quiet ?_ (quiet_own h₃)
  intro p b x hp
  obtain ⟨hlt, hin⟩ := r₂ p b x hp
  refine ⟨hlt, ?_⟩
  rw [Lib.Conf.stored_setCash, Lib.Conf.cash_setCash]
  rcases hin with hin | rfl | hn
  · refine .inl ?_
    split_ifs with hk
    · exact List.mem_append_left _ (hk ▸ hin)
    · exact hin
  · obtain ⟨b', x', hp', -, -, hx⟩ := st.is p o c hr
    obtain ⟨-, rfl⟩ : b' = b ∧ x' = x := by simpa [hp'] using hp
    rw [if_pos (by rw [← Fields.kind_cls, hx, hc])]
    simp
  · exact .inr (.inr hn)

theorem infoAdded (h : Registered (fun _ => False) w) (hw : Sound w) {id : Oid} {t : AccountType} {r : Option ℕ}
    (ha : InfoAdded w id t r w') : Registered (fun _ => False) w' := by
  have pushed : ∀ {c : DBClass} {d : Doc} {o : Obj}, w.stored .infos id = some d → c.ofDoc d = .ok o →
      Registered (· = w.heap.next) (w.push o) := by
    intro c d o hs ho
    have hwait : Registered (· = w.heap.next) w :=
      fun p b x hp => (h p b x hp).imp_right (Or.imp_right (Or.imp_left False.elim))
    obtain ⟨x, -, rfl⟩ := ofDoc_stored hs ho
    refine hwait.push fun b hb => ⟨?_, rfl⟩
    obtain rfl := Option.some.inj hb
    exact w.env.fresh _ _ _ hs
  cases ha with
  | admin => exact h
  | student hs ho hg he ha =>
    rename_i d o acc w₁ w₂
    have q₁ := quiet_getOwner (g := .getStudentOwner) rfl (sound_push hw o) hg
    have s₁ := q₁.sound (sound_push hw o)
    have p₂ := he.pending s₁
    exact (((pushed hs ho).quiet q₁).grouped s₁ he).attached (p₂.sound s₁) (p₂.is _ _ _ (q₁.is (push_is hs ho))) rfl ha
  | teacher hs ho hg ha =>
    rename_i d o acc w₁
    have q₁ := quiet_getOwner (g := .getTeacherOwner) rfl (sound_push hw o) hg
    exact ((pushed hs ho).quiet q₁).attached (q₁.sound (sound_push hw o)) (q₁.is (push_is hs ho)) rfl ha

/-- What is stored is written through the cached object only. -/
theorem noTwin (h : Registered (fun _ => False) w) (hw : Coherent w) {p : ℕ} {c : Option IFromDB} {x : Fields}
    (hp : w.heap.get p = some ⟨c, x⟩) (hk : x.kind = k) : NoTwin w k p := by
  intro q hq hid
  obtain ⟨b, y, hg, -, -⟩ := hw.entry k q hq
  have hs := hw.doc k q hq b y hg
  rw [Lib.Conf.idOf_of_get hg] at hid
  cases c with
  | none => simp [Lib.Conf.idOf, hp] at hid
  | some b' =>
    have hi := hid
    rw [Lib.Conf.idOf_of_get hp, Option.some.injEq] at hi
    rcases (h p b' x hp).2 with hin | hf | hn
    · exact hw.eq_of_idOf (hk ▸ hin) hq (by rw [Lib.Conf.idOf_of_get hg, hid])
    · exact hf.elim
    · rw [hk, ← hi, hs] at hn
      cases hn

end Registered

/-! ### Every run -/

/-- The actions other than a log-in; what is deleted is cached. -/
def Action.cacheBound (a : Action) (w : World) : Prop :=
  match a with
  | .findFullAccount _ => False
  | .delete k oid => w.cached k oid ≠ none
  | _ => True

theorem Outcome.registered {a : Action} (h : Outcome w a w') (hw : Coherent w) (hr : Registered (fun _ => False) w)
    (hg : a.cacheBound w) : Coherent w' ∧ Registered (fun _ => False) w' := by
  cases h with
  | quiet h => exact ⟨h.coherent hw, hr.quiet h⟩
  | listed hc hl hq => exact ⟨(hq.coherent hw).setChanged false, (hr.quiet hq).setChanged false⟩
  | loggedIn hd ho => exact hg.elim
  | @added k e t x d o hk he hx hd ho =>
    refine ⟨hw.added he ho, ?_⟩
    obtain ⟨y, hy, rfl⟩ := ofDoc_stored (stored_post_new (w := w) (k := k) (e := e)) ho
    exact (hr.post d).load (Nat.lt_succ_self _) (Fields.kind_of_dbClass hy)
  | infoAdded he hx hd h =>
    refine ⟨(hw.post he _).infoAdded h fun p hp => ?_, (hr.post _).infoAdded (hw.post he _).toSound h⟩
    rw [cash_post] at hp
    exact hw.idOf_post_ne he _ hp
  | deleted h => exact ⟨hw.deleted h, hr.deleted hw h hg⟩
  | updated h =>
    obtain ⟨b, x, d, hd, hel, hk, -⟩ := run_update_iff.mp h
    exact ⟨hw.refresh (hr.noTwin hw hel hk) h, hr.update h⟩
  | enrolled h =>
    obtain ⟨bs, s, c, g, -, -, -, hs, hg, -⟩ := h.steps
    exact ⟨hw.enrolled h (hr.noTwin hw hg rfl) (hr.noTwin hw hs rfl), hr.enrolled hw.toSound h⟩
  | expelled h =>
    obtain ⟨bs, s, c, g, -, -, -, -, -, -, hs, hg, -⟩ := h.steps
    exact ⟨hw.expelled h (hr.noTwin hw hg rfl) (hr.noTwin hw hs rfl), hr.expelled hw.toSound h⟩

theorem registered_start (db : Database) : Registered pend (World.start db) := by
  intro p b x hp
  simp [World.start, Process.init, Lib.Conf.heap] at hp

/-! ### Ids -/

/-- Every object from the database has an id the database has given, whatever was deleted and whoever logged in. -/
abbrev Issued (w : World) : Prop := Registered (fun _ => True) w

namespace Issued

theorem lt (h : Issued w) {p : ℕ} {b : IFromDB} {x : Fields} (hp : w.heap.get p = some ⟨some b, x⟩) :
    b.id < w.env.nextOid := (h p b x hp).1

theorem of_lt (h : ∀ p b x, w.heap.get p = some ⟨some b, x⟩ → b.id < w.env.nextOid) : Issued w :=
  fun p b x hp => ⟨h p b x hp, .inr (.inl trivial)⟩

theorem attached (h : Issued w) (hw : Sound w) {acc res : ℕ} (ha : Attached w acc res w') : Issued w' := by
  obtain ⟨w₁, w₂, h₁, h₂, h₃⟩ := ha.steps
  have i₂ := Registered.update (Registered.quiet h (quiet_setRef hw h₁)) h₂
  have i₃ : Issued (w₂.setCash .infos (w₂.cash .infos ++ [res])) := .of_lt fun p b x hp => (i₂ p b x hp).1
  exact Registered.quiet i₃ (quiet_own h₃)

theorem infoAdded (h : Issued w) (hw : Sound w) {id : Oid} {t : AccountType} {r : Option ℕ}
    (ha : InfoAdded w id t r w') : Issued w' := by
  have pushed : ∀ {c : DBClass} {d : Doc} {o : Obj}, w.stored .infos id = some d → c.ofDoc d = .ok o →
      Issued (w.push o) := by
    intro c d o hs ho
    obtain ⟨x, -, rfl⟩ := ofDoc_stored hs ho
    refine Registered.push h fun b hb => ⟨?_, trivial⟩
    obtain rfl := Option.some.inj hb
    exact w.env.fresh _ _ _ hs
  cases ha with
  | admin => exact h
  | student hs ho hg he ha =>
    rename_i d o acc w₁ w₂
    have q₁ := quiet_getOwner (g := .getStudentOwner) rfl (sound_push hw o) hg
    have s₁ := q₁.sound (sound_push hw o)
    exact attached (Registered.grouped (Registered.quiet (pushed hs ho) q₁) s₁ he) ((he.pending s₁).sound s₁) ha
  | teacher hs ho hg ha =>
    rename_i d o acc w₁
    have q₁ := quiet_getOwner (g := .getTeacherOwner) rfl (sound_push hw o) hg
    exact attached (Registered.quiet (pushed hs ho) q₁) (q₁.sound (sound_push hw o)) ha

theorem deleted (h : Issued w) {oid : Oid} (hd : Deleted w k oid w') : Issued w' := by
  apply of_lt
  intro p b x hp
  obtain ⟨b₀, hp₀, hid⟩ := hd.back hp
  rw [hd.next, ← hid]
  exact h.lt hp₀

end Issued

theorem Outcome.issued {a : Action} (h : Outcome w a w') (hw : Sound w) (hi : Issued w) : Issued w' := by
  cases h with
  | quiet h => exact Registered.quiet hi h
  | listed hc hl hq => exact (Registered.quiet hi hq).setChanged false
  | loggedIn hd ho =>
    obtain ⟨x, i, hx, hid, rfl⟩ := ofDoc_eq_ok.mp ho
    exact Registered.load hi (w.env.fresh _ _ _ (account?_stored hd hid))
      (by rw [← Fields.kind_cls, DBClass.cls_fields hx]; rfl)
  | @added k e t x d o hk he hx hd ho =>
    obtain ⟨y, hy, rfl⟩ := ofDoc_stored (stored_post_new (w := w) (k := k) (e := e)) ho
    exact (hi.post d).load (Nat.lt_succ_self _) (Fields.kind_of_dbClass hy)
  | infoAdded he hx hd h => exact Issued.infoAdded (hi.post _) (hw.post he _) h
  | deleted h => exact hi.deleted h
  | updated h => exact Registered.update hi h
  | enrolled h => exact Registered.enrolled hi hw h
  | expelled h => exact Registered.expelled hi hw h

end Cbt
