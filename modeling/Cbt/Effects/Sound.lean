import Cbt.Effects.Members

/-! Every action keeps the caches sound: whatever the arguments, a cached object
is there, exists and is of its controller, and none is cached twice. The reason
is the same everywhere: only new objects are cached, and an object is destroyed
or flagged only after it left the cache. -/

namespace Cbt

open Lib.Command (run_bind_iff run_pure_iff run_fault_iff run_ofExcept_iff)

/-- The object at an address exists, with an id and a class. -/
def Lib.Conf.Is (w : World) (p : ℕ) (o : Oid) (c : DBClass) : Prop :=
  ∃ b x, w.heap.get p = some ⟨some b, x⟩ ∧ b.isExist = true ∧ b.id = o ∧ x.cls = c

variable {w w' : World} {k : Kind}

theorem Lib.Conf.Is.idOf {p : ℕ} {o : Oid} {c : DBClass} (h : w.Is p o c) : w.idOf p = some o := by
  obtain ⟨b, x, hp, -, rfl, -⟩ := h
  exact Lib.Conf.idOf_of_get hp

theorem Lib.Conf.Is.alive {p : ℕ} {o : Oid} {c : DBClass} (h : w.Is p o c) : w.Alive p := by
  obtain ⟨b, x, hp, hb, -, -⟩ := h
  exact ⟨b, x, hp, hb⟩

theorem Sound.is (hw : Sound w) {p : ℕ} (hp : p ∈ w.cash k) : ∃ o c, w.Is p o c ∧ c.kind = k := by
  obtain ⟨b, x, h, hb, hk⟩ := hw.entry k p hp
  exact ⟨b.id, x.cls, ⟨b, x, h, hb, rfl, rfl⟩, by simpa using hk⟩

theorem Sound.of_is (h : ∀ k, ∀ p ∈ w.cash k, ∃ o c, w.Is p o c ∧ c.kind = k) (hn : ∀ k, (w.cash k).Nodup) :
    Sound w := by
  refine ⟨fun k p hp => ?_, hn⟩
  obtain ⟨o, c, ⟨b, x, hg, hb, rfl, rfl⟩, hk⟩ := h k p hp
  exact ⟨b, x, hg, hb, by simpa using hk⟩

/-- Nothing is cached, and every object that exists goes on existing with its id and its class. -/
structure Steady (w w' : World) : Prop where
  cash : w'.cash = w.cash
  isChanged : w'.isChanged = w.isChanged
  is : ∀ p o c, w.Is p o c → w'.Is p o c

namespace Steady

theorem trans {w₁ w₂ w₃ : World} (h : Steady w₁ w₂) (h' : Steady w₂ w₃) : Steady w₁ w₃ :=
  ⟨h'.cash.trans h.cash, h'.isChanged.trans h.isChanged, fun p o c hp => h'.is p o c (h.is p o c hp)⟩

theorem sound (h : Steady w w') (hw : Sound w) : Sound w' := by
  refine .of_is (fun k p hp => ?_) (by rw [h.cash]; exact hw.nodup)
  rw [h.cash] at hp
  obtain ⟨o, c, hi, hk⟩ := hw.is hp
  exact ⟨o, c, h.is p o c hi, hk⟩

theorem alive (h : Steady w w') {p : ℕ} (hp : w.Alive p) : w'.Alive p := by
  obtain ⟨b, x, hg, hb⟩ := hp
  obtain ⟨b', x', hg', hb', -⟩ := h.is p b.id x.cls ⟨b, x, hg, hb, rfl, rfl⟩
  exact ⟨b', x', hg', hb'⟩

end Steady

theorem Quiet.is {L : Loads} (h : Quiet L w w') {p : ℕ} {o : Oid} {c : DBClass} (hp : w.Is p o c) :
    w'.Is p o c := by
  obtain ⟨b, x, hg, hb, rfl, rfl⟩ := hp
  obtain ⟨b', x', hg', hc, hx⟩ := h.same hg hb
  simp only [IFromDB.core, Prod.mk.injEq] at hc
  exact ⟨b', x', hg', by rw [hc.2.2, hb], hc.1, hx⟩

/-- Nothing may be loaded. -/
def never : Loads := fun _ _ => False

theorem Quiet.steady (h : Quiet never w w') : Steady w w' :=
  ⟨funext fun _ => h.cash_eq fun _ => id, h.isChanged, fun _ _ _ hp => h.is hp⟩

theorem quiet_setRef {f : RefField} {this : ℕ} {v : Option ℕ} {u : Unit} (hw : Sound w)
    (h : run (setRef f this v) w = .ok (u, w')) : Quiet never w w' := reads_setRef f this v w u w' h hw

theorem quiet_own {p : ℕ} {n : ℤ} {u : Unit} (h : run (own p n) w = .ok (u, w')) : Quiet never w w' := by
  obtain ⟨b, x, hp, rfl⟩ := run_own_iff.mp h
  exact .single (.put hp (.own n ⟨some b, x⟩))

theorem steady_put {p : ℕ} {b b' : IFromDB} {x x' : Fields} (hp : w.heap.get p = some ⟨some b, x⟩)
    (hi : b'.id = b.id) (he : b'.isExist = b.isExist) (hx : x'.cls = x.cls) : Steady w (w.put p ⟨some b', x'⟩) := by
  refine ⟨rfl, rfl, ?_⟩
  rintro q o c ⟨b₁, x₁, hq, hb, rfl, rfl⟩
  by_cases hqp : q = p
  · subst hqp
    obtain ⟨rfl, rfl⟩ : b = b₁ ∧ x = x₁ := by simpa [hp] using hq
    exact ⟨b', x', by simp [Lib.Heap.get_set _ hp], he.trans hb, hi, hx⟩
  · exact ⟨b₁, x₁, by simpa [Lib.Heap.get_set _ hp, hqp] using hq, hb, rfl, rfl⟩

theorem steady_update {el : ℕ} {r : Bool} (h : run (Controller.update k el) w = .ok (r, w')) : Steady w w' := by
  obtain ⟨b, x, d, hd, hel, -, -, -, rfl⟩ := run_update_iff.mp h
  have h₁ : Steady w (w.setEnv (w.env.replace k b.id d (toDoc_id hd))) := ⟨rfl, rfl, fun _ _ _ h => h⟩
  exact h₁.trans (steady_put hel rfl rfl rfl)

theorem steady_assignStudents {c : Option IFromDB} {g : Group} {this : ℕ}
    (h : w.heap.get this = some ⟨c, .group g⟩) (l : List ℕ) :
    Steady w (w.put this ⟨c, .group { g with students := l }⟩) := Quiet.steady (quiet_assignStudents h l)

theorem Enrolled.steady {this stud : ℕ} (h : Enrolled w this stud w') (hw : Sound w) : Steady w w' := by
  obtain ⟨bs, s, c, g, w₂, w₃, w₄, hs, hg, h₂, h₃, h₄, h₅⟩ := h.steps
  have s₂ := (steady_assignStudents hg _).trans (steady_update h₂)
  have s₃ := s₂.trans (quiet_setRef (s₂.sound hw) h₃).steady
  exact (s₃.trans (steady_update h₄)).trans (quiet_own h₅).steady

theorem Expelled.steady {this stud : ℕ} (h : Expelled w this stud w') (hw : Sound w) : Steady w w' := by
  obtain ⟨bs, s, c, g, l₁, p, l₂, w₂, w₃, w₄, hs, hg, hl, -, -, h₂, h₃, h₄, h₅⟩ := h.steps
  have s₂ := (steady_assignStudents hg _).trans (steady_update h₂)
  have s₃ := s₂.trans (quiet_setRef (s₂.sound hw) h₃).steady
  exact (s₃.trans (steady_update h₄)).trans (quiet_own h₅).steady

/-! ### Soundness of the writes -/

/-- An object that exists and is not cached yet may be cached. -/
theorem Sound.cache (hw : Sound w) {p : ℕ} {o : Oid} {c : DBClass} (hp : w.Is p o c) (hk : c.kind = k)
    (hn : p ∉ w.cash k) : Sound (w.setCash k (w.cash k ++ [p])) := by
  refine .of_is (fun k' q hq => ?_) fun k' => ?_
  · change ∃ o c, w.Is q o c ∧ c.kind = k'
    rw [Lib.Conf.cash_setCash] at hq
    split_ifs at hq with he
    · subst he
      rcases List.mem_append.mp hq with hq | hq
      · exact hw.is hq
      · obtain rfl := List.mem_singleton.mp hq
        exact ⟨o, c, hp, hk⟩
    · exact hw.is hq
  · rw [Lib.Conf.cash_setCash]
    split_ifs with he
    · subst he
      rw [List.nodup_append]
      refine ⟨hw.nodup k', by simp, ?_⟩
      rintro q hq r hr rfl
      obtain rfl := List.mem_singleton.mp hr
      exact hn hq
    · exact hw.nodup k'

theorem sound_push (hw : Sound w) (o : Obj) : Sound (w.push o) := by
  refine ⟨fun k p hp => ?_, hw.nodup⟩
  obtain ⟨b, x, hg, hb, hk⟩ := hw.entry k p hp
  exact ⟨b, x, Lib.Heap.get_push_of_some _ hg, hb, hk⟩

theorem steady_push (w : World) (o : Obj) : Steady w (w.push o) :=
  ⟨rfl, rfl, fun _ _ _ ⟨b, x, hg, h⟩ => ⟨b, x, Lib.Heap.get_push_of_some _ hg, h⟩⟩

/-- Any new object that exists may be cached. -/
theorem Sound.load (hw : Sound w) {b : IFromDB} {x : Fields} (hb : b.isExist = true) (hk : x.kind = k) :
    Sound (w.load k ⟨some b, x⟩) := by
  refine (sound_push hw _).cache (p := w.heap.next) (o := b.id) (c := x.cls) ⟨b, x, by simp, hb, rfl, rfl⟩
    (by simpa using hk) ?_
  exact fun h => (hw.lt_next h).ne rfl

theorem Sound.setChanged (hw : Sound w) (b : Bool) : Sound (w.setChanged k b) :=
  ⟨fun k' p hp => hw.entry k' p (by simpa using hp), fun k' => by simpa using hw.nodup k'⟩

theorem Sound.setEnv (hw : Sound w) (db : Database) : Sound (w.setEnv db) := ⟨hw.entry, hw.nodup⟩

theorem get_free_of_alive {p q : ℕ} (hp : ¬ w.Alive p) {b : IFromDB} {x : Fields}
    (hq : w.heap.get q = some ⟨some b, x⟩) (hb : b.isExist = true) : (w.free p).heap.get q = some ⟨some b, x⟩ := by
  rw [Lib.Conf.heap_free, Lib.Heap.get_free, if_neg, hq]
  rintro rfl
  exact hp ⟨b, x, hq, hb⟩

theorem steady_free {p : ℕ} (hp : ¬ w.Alive p) : Steady w (w.free p) :=
  ⟨rfl, rfl, fun _ _ _ ⟨b, x, hq, hb, h⟩ => ⟨b, x, get_free_of_alive hp hq hb, hb, h⟩⟩

theorem not_alive_of_plain {e : ℕ} {x : Fields} (he : w.heap.get e = some ⟨none, x⟩) : ¬ w.Alive e :=
  fun ⟨b, x', h, _⟩ => by simp [he] at h

/-- A plain object may be destroyed. -/
theorem Sound.free (hw : Sound w) {e : ℕ} {x : Fields} (he : w.heap.get e = some ⟨none, x⟩) : Sound (w.free e) :=
  (steady_free (not_alive_of_plain he)).sound hw

theorem Sound.post (hw : Sound w) {e : ℕ} {x : Fields} (he : w.heap.get e = some ⟨none, x⟩) (d : Doc) :
    Sound (w.post k e d) := by
  refine Sound.setEnv ?_ _
  exact (hw.setChanged true).free (x := x) (by simpa using he)

theorem Deleted.sound {oid : Oid} (h : Deleted w k oid w') (hw : Sound w) : Sound w' := by
  obtain ⟨p, b, x, db, hv, hp, rfl, -⟩ := h.effect
  have hin := victim_mem hv
  have hkp : ∀ k', p ∈ w.cash k' → k' = k := by
    intro k' hk'
    obtain ⟨b₁, x₁, h₁, -, hk₁⟩ := hw.entry k p hin
    obtain ⟨b₂, x₂, h₂, -, hk₂⟩ := hw.entry k' p hk'
    obtain ⟨rfl, rfl⟩ : b₁ = b₂ ∧ x₁ = x₂ := by simpa [h₁] using h₂
    exact hk₂.symm.trans hk₁
  refine Sound.setEnv ⟨fun k' q hq => ?_, fun k' => ?_⟩ _
  · have hq' : q ∈ w.cash k' ∧ q ≠ p := by
      rw [Lib.Conf.cash_setCash] at hq
      split_ifs at hq with he
      · subst he; simpa using hq
      · have hin' : q ∈ w.cash k' := by simpa using hq
        exact ⟨hin', fun hqp => he (hkp k' (hqp ▸ hin'))⟩
    obtain ⟨b', x', hg, hb, hk⟩ := hw.entry k' q hq'.1
    refine ⟨b', x', ?_, hb, hk⟩
    rw [Lib.Conf.heap_setCash, get_dismiss_of_ne _ _ _ _ (by simpa using hp) hq'.2]
    simpa using hg
  · rw [Lib.Conf.cash_setCash]
    split_ifs
    · exact (hw.nodup k).filter _
    · simpa using hw.nodup k'

/-! ### Adding an info -/

/-- Getters of an owner load accounts only. -/
theorem quiet_getOwner {g : Getter} (hg : g.kind = .accounts) {this : ℕ} {r : Option ℕ} (hw : Sound w)
    (h : run (g.call this) w = .ok (r, w')) : Quiet (fun k _ => k = .accounts) w w' :=
  (quiet_getter hw h).mono fun _ _ hk => hk.1.trans hg

/-- Getters of a group load groups only. -/
theorem quiet_getGroup {this : ℕ} {r : Option ℕ} (hw : Sound w)
    (h : run (StudentInfoDB.getGroup this) w = .ok (r, w')) : Quiet (fun k _ => k = .groups) w w' :=
  (quiet_getter (g := .getStudentGroup) hw h).mono fun _ _ hk => hk.1

/-- What happens to a new object between its construction and the end of `Add`: it stays out of the cache of
the infos and keeps its id and its class. -/
structure Pending (w w' : World) : Prop where
  sound : Sound w → Sound w'
  cash : w'.cash .infos = w.cash .infos
  is : ∀ p o c, w.Is p o c → w'.Is p o c

theorem Pending.trans {w₁ w₂ w₃ : World} (h : Pending w₁ w₂) (h' : Pending w₂ w₃) : Pending w₁ w₃ :=
  ⟨h'.sound ∘ h.sound, h'.cash.trans h.cash, fun p o c hp => h'.is p o c (h.is p o c hp)⟩

theorem Steady.pending (h : Steady w w') : Pending w w' := ⟨h.sound, by rw [h.cash], h.is⟩

theorem Quiet.pending {L : Loads} (h : Quiet L w w') (hm : ∀ o, ¬ L .infos o) : Pending w w' :=
  ⟨h.sound, h.cash_eq hm, fun _ _ _ hp => h.is hp⟩

theorem Grouped.pending {temp : ℕ} (h : Grouped w temp w') (hw : Sound w) : Pending w w' := by
  cases h with
  | none h => exact (quiet_getGroup hw h).pending (by simp)
  | some h h' he =>
    have q₁ := quiet_getGroup hw h
    have q₂ := quiet_getGroup (q₁.sound hw) h'
    have s := q₂.sound (q₁.sound hw)
    exact ((q₁.pending (by simp)).trans (q₂.pending (by simp))).trans (he.steady s).pending

theorem Attached.sound {acc res : ℕ} {o : Oid} {c : DBClass} (h : Attached w acc res w') (hw : Sound w)
    (hr : w.Is res o c) (hk : c.kind = .infos) (hn : res ∉ w.cash .infos) : Sound w' := by
  obtain ⟨w₁, w₂, h₁, h₂, h₃⟩ := h.steps
  have s₂ := (quiet_setRef hw h₁).steady.trans (steady_update h₂)
  have hc := (s₂.sound hw).cache (s₂.is res o c hr) hk (by rw [s₂.cash]; exact hn)
  exact (quiet_own h₃).sound hc

theorem push_is {c : DBClass} {d : Doc} {o : Obj} {id : Oid} (hs : w.stored k id = some d) (ho : c.ofDoc d = .ok o) :
    (w.push o).Is w.heap.next id c := by
  obtain ⟨x, rfl, rfl⟩ := ofDoc_stored hs ho
  exact ⟨_, x, by simp; rfl, rfl, rfl, rfl⟩

theorem InfoAdded.sound {id : Oid} {t : AccountType} {r : Option ℕ} (h : InfoAdded w id t r w') (hw : Sound w) :
    Sound w' := by
  have hn : ∀ {w₁ : World} {o : Obj}, Pending (w.push o) w₁ → w.heap.next ∉ w₁.cash .infos := by
    intro w₁ o hp
    rw [hp.cash]
    exact fun h => (hw.lt_next h).ne rfl
  cases h with
  | admin => exact hw
  | student hs ho hg he ha =>
    rename_i d o acc w₁ w₂
    have p₁ := (quiet_getOwner (g := .getStudentOwner) rfl (sound_push hw o) hg).pending (by simp)
    have p₂ := p₁.trans (he.pending (p₁.sound (sound_push hw o)))
    exact ha.sound (p₂.sound (sound_push hw o)) (p₂.is _ _ _ (push_is hs ho)) rfl (hn p₂)
  | teacher hs ho hg ha =>
    rename_i d o acc w₁
    have p₁ := (quiet_getOwner (g := .getTeacherOwner) rfl (sound_push hw o) hg).pending (by simp)
    exact ha.sound (p₁.sound (sound_push hw o)) (p₁.is _ _ _ (push_is hs ho)) rfl (hn p₁)

/-! ### What an action does -/

theorem reads_lookUpOf {L : Loads} {oid : Oid} {t : AccountType} (hm : L k oid) :
    Reads L (getFromDB k oid t) := by
  unfold getFromDB
  split_ifs with hk
  · subst hk; exact reads_infosGetFromDB hm
  · exact reads_getFromDB hm

/-- The documents an action may load, a listing with a query apart. -/
def Action.loads (a : Action) (w : World) : Loads :=
  match a with
  | .getFromDB k oid _ => fun k' o => k' = k ∧ o = oid
  | .getAllTeachers => fun k' _ => k' = .accounts
  | .getAllSchedulesinDate _ _ => fun k' _ => k' = .schedules
  | .get g this => fun k' o => k' = g.kind ∧ w.docRef this g.key = some o
  | .getStudents this => fun k' o => k' = .infos ∧ o ∈ w.docMembers this
  | _ => never

/-- What a step can do. -/
inductive Outcome (w : World) : Action → World → Prop
  | quiet {a : Action} {w' : World} (h : Quiet (a.loads w) w w') : Outcome w a w'
  | listed {k : Kind} {r : List ℕ} {w₁ : World} (hc : w.isChanged k = true)
      (hl : run (Controller.collect k (Controller.admits k) false (w.env.coll k).docs) w = .ok (r, w₁))
      (hq : Quiet (fun k' _ => k' = k) w w₁) : Outcome w (.getAll k) (w₁.setChanged k false)
  | loggedIn {l : LogPass} {d : Doc} {o : Obj} (hd : w.account? l = some d) (ho : DBClass.accountDB.ofDoc d = .ok o) :
      Outcome w (.findFullAccount l) (w.load .accounts o)
  | added {k : Kind} {e : ℕ} {t : AccountType} {x : Fields} {d : Doc} {o : Obj} (hk : k ≠ .infos)
      (he : w.heap.get e = some ⟨none, x⟩) (hx : x.kind = k) (hd : x.toDoc w.heap = .ok d)
      (ho : k.dbClass.ofDoc (Collection.withId w.env.nextOid d) = .ok o) :
      Outcome w (.add k e t) ((w.post k e d).load k (o.own 1))
  | infoAdded {e : ℕ} {t : AccountType} {r : Option ℕ} {x : Fields} {d : Doc} {w' : World}
      (he : w.heap.get e = some ⟨none, x⟩) (hx : x.kind = .infos) (hd : x.toDoc w.heap = .ok d)
      (h : InfoAdded (w.post .infos e d) w.env.nextOid t r w') : Outcome w (.add .infos e t) w'
  | deleted {k : Kind} {oid : Oid} {w' : World} (h : Deleted w k oid w') : Outcome w (.delete k oid) w'
  | updated {k : Kind} {el : ℕ} {w' : World} (h : run (Controller.update k el) w = .ok (true, w')) :
      Outcome w (.update k el) w'
  | enrolled {this stud : ℕ} {w' : World} (h : Enrolled w this stud w') : Outcome w (.addStudent this stud) w'
  | expelled {this stud : ℕ} {w' : World} (h : Expelled w this stud w') : Outcome w (.deleteStudent this stud) w'

/-- Every step has one of the outcomes. -/
theorem outcome_of_step {a : Action} (hw : Sound w) (h : a.Step w w') : Outcome w a w' := by
  unfold Action.Step at h
  cases a <;> simp only [Action.cmd, run_bind_iff, run_pure_iff] at h
  case getFromDB k oid t =>
    obtain ⟨_, _, h, -, rfl⟩ := h
    exact .quiet (reads_lookUpOf (t := t) ⟨rfl, rfl⟩ _ _ _ h hw)
  case getAll k =>
    obtain ⟨_, _, h, -, rfl⟩ := h
    rcases run_getAll_iff.mp h with ⟨-, -, rfl⟩ | ⟨hc, w₁, h₁, rfl⟩
    · exact .quiet .refl
    · exact .listed hc h₁ (quiet_collect (by simp) hw (fun d hd o ho => Collection.get?_of_mem hd ho) h₁)
  case getAllTeachers =>
    obtain ⟨_, _, h, -, rfl⟩ := h
    exact .quiet (reads_getAllTeachers (fun _ => rfl) _ _ _ h hw)
  case getAllSchedulesinDate =>
    obtain ⟨_, _, h, -, rfl⟩ := h
    exact .quiet (reads_getAllSchedulesinDate (fun _ => rfl) _ _ _ _ _ h hw)
  case findFullAccount =>
    obtain ⟨_, _, h, -, rfl⟩ := h
    obtain ⟨d, o, hd, ho, -, rfl⟩ := run_findFullAccount_iff.mp h
    exact .loggedIn hd ho
  case new =>
    obtain ⟨_, _, h, -, rfl⟩ := h
    exact .quiet (reads_newObj _ _ _ _ h hw)
  case add k e t =>
    obtain ⟨_, _, h, -, rfl⟩ := h
    unfold add at h
    split_ifs at h with hk
    · subst hk
      obtain ⟨x, d, he, hx, hd, -, h⟩ := run_infosAdd h
      exact .infoAdded he hx hd h
    · obtain ⟨x, d, o, he, hx, hd, -, ho, -, rfl⟩ := run_add_iff.mp h
      exact .added hk he hx hd ho
  case delete => obtain ⟨_, _, h, -, rfl⟩ := h; exact .deleted (run_delete hw h)
  case update =>
    obtain ⟨_, _, h, -, rfl⟩ := h
    obtain ⟨-, -, -, -, -, -, -, rfl, -⟩ := run_update_iff.mp h
    exact .updated h
  case setRef => exact .quiet (quiet_setRef hw h)
  case setStudents => exact .quiet (reads_setStudents _ _ _ _ _ h hw)
  case get => obtain ⟨_, _, h, -, rfl⟩ := h; exact .quiet (quiet_getter hw h)
  case getStudents => obtain ⟨_, _, h, -, rfl⟩ := h; exact .quiet (quiet_getStudents hw h)
  case addStudent => obtain ⟨_, _, h, -, rfl⟩ := h; exact .enrolled (run_addStudent_iff.mp h).2
  case deleteStudent =>
    obtain ⟨_, _, h, -, rfl⟩ := h
    rcases run_deleteStudent h with ⟨-, h⟩ | ⟨-, rfl⟩
    · exact .expelled h
    · exact .quiet .refl

/-! ### Soundness of every action -/

theorem sound_start (db : Database) : Sound (World.start db) := by
  constructor <;> intro k <;> simp [World.start, Process.init, Lib.Conf.cash]

/-- Every action keeps the caches sound. -/
theorem Outcome.sound {a : Action} (h : Outcome w a w') (hw : Sound w) : Sound w' := by
  cases h with
  | quiet h => exact h.sound hw
  | listed hc hl hq => exact (hq.sound hw).setChanged false
  | loggedIn hd ho =>
    obtain ⟨x, i, hx, -, rfl⟩ := ofDoc_eq_ok.mp ho
    exact hw.load rfl (Fields.kind_of_dbClass (k := .accounts) (DBClass.cls_fields hx))
  | added hk he hx hd ho =>
    obtain ⟨y, i, hy, -, rfl⟩ := ofDoc_eq_ok.mp ho
    exact (hw.post he _).load rfl (Fields.kind_of_dbClass (DBClass.cls_fields hy))
  | infoAdded he hx hd h => exact h.sound (hw.post he _)
  | deleted h => exact h.sound hw
  | updated h => exact (steady_update h).sound hw
  | enrolled h => exact (h.steady hw).sound hw
  | expelled h => exact (h.steady hw).sound hw

/-- The caches are sound in every state a run reaches. -/
theorem sound_of_run {db : Database} {as : List Action} (hr : Lib.Run Action.Step Lib.Free (World.start db) as w) :
    Sound w :=
  hr.invariant (sound_start db) fun a _ _ hw _ hs => (outcome_of_step (a := a) hw hs).sound hw

end Cbt
