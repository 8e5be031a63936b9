import Cbt.Caches.Concrete

/-! Objects of infos and their records. As long as every object is of a concrete
class, each object of an info has the class and the values of the stored record,
and what it writes is a record of that class. A run whose listings of the infos
make no object keeps it so: a look-up under the right type answers with the
class and the values of the record, and an update keeps them. -/

namespace Cbt

open Lib.Command (run_bind_iff run_pure_iff)

variable {w w' : World} {k : Kind}

/-- Every stored info is the record of a student or of a teacher, and the objects of an info read as the record. -/
structure Recorded (w : World) : Prop where
  shape : ∀ i d, w.stored .infos i = some d → Kind.infos.Shaped d
  below : ∀ p b x, w.heap.get p = some ⟨some b, x⟩ → x.kind = .infos → b.id < w.env.nextOid
  reads : ∀ p b x d, w.heap.get p = some ⟨some b, x⟩ → x.kind = .infos → w.stored .infos b.id = some d →
    x.cls.fields d = .ok x.bare

namespace Recorded

/-- Nothing is stored anew, and an object was there before or reads as its record. -/
theorem back (h : Recorded w) (hs : ∀ i d, w'.stored .infos i = some d → w.stored .infos i = some d)
    (hn : w.env.nextOid ≤ w'.env.nextOid)
    (hb : ∀ p b' x', w'.heap.get p = some ⟨some b', x'⟩ → x'.kind = .infos →
      (∃ b x, w.heap.get p = some ⟨some b, x⟩ ∧ b.id = b'.id ∧ x.bare = x'.bare) ∨
        ∃ d, w'.stored .infos b'.id = some d ∧ x'.cls.fields d = .ok x'.bare) : Recorded w' := by
  refine ⟨fun i d hd => h.shape i d (hs i d hd), ?_, ?_⟩
  · intro p b' x' hp hk
    rcases hb p b' x' hp hk with ⟨b, x, hp', hid, hx⟩ | ⟨d, hd, -⟩
    · rw [← hid]
      exact (h.below p b x hp' (Fields.kind_of_bare hx ▸ hk)).trans_le hn
    · exact w'.env.fresh _ _ _ hd
  · intro p b' x' d hp hk hd
    rcases hb p b' x' hp hk with ⟨b, x, hp', hid, hx⟩ | ⟨d', hd', hx⟩
    · rw [← Fields.cls_of_bare hx, ← hx]
      exact h.reads p b x d hp' (Fields.kind_of_bare hx ▸ hk) (hid ▸ hs _ _ hd)
    · rw [hd', Option.some.injEq] at hd
      exact hd ▸ hx

/-- An object is overwritten without touching its id or its own values. -/
theorem put (h : Recorded w) {p : ℕ} {o o' : Obj} (hp : w.heap.get p = some o)
    (hid : o'.fromDB.map (·.id) = o.fromDB.map (·.id)) (hx : o'.fields.bare = o.fields.bare) : Recorded (w.put p o') := by
  refine h.back (fun _ _ hd => hd) le_rfl fun q b' x' hq hk => .inl ?_
  rw [Lib.Conf.get_put hp] at hq
  split_ifs at hq with he
  · subst he
    obtain rfl := Option.some.inj hq
    obtain ⟨_ | b, x⟩ := o
    · simp at hid
    · exact ⟨b, x, hp, by simpa using hid.symm, hx.symm⟩
  · exact ⟨b', x', hq, rfl, rfl⟩

/-- A new object of an info reads as its record. -/
theorem push (h : Recorded w) {o : Obj} (ho : ∀ b, o.fromDB = some b → o.fields.kind = .infos →
    ∃ d, w.stored .infos b.id = some d ∧ o.fields.cls.fields d = .ok o.fields.bare) : Recorded (w.push o) := by
  refine h.back (fun _ _ hd => hd) le_rfl fun q b' x' hq hk => ?_
  rw [Lib.Conf.heap_push, Lib.Heap.get_push] at hq
  split_ifs at hq with he
  · obtain rfl := Option.some.inj hq
    exact .inr (ho b' rfl hk)
  · exact .inl ⟨b', x', hq, rfl, rfl⟩

theorem push_builds (h : Recorded w) {o : Obj} (hb : w.Builds o) : Recorded (w.push o) := by
  refine h.push fun b hob hk => ?_
  rcases hb with hn | ⟨c, i, d, hs, ho⟩
  · rw [hn] at hob
    cases hob
  · obtain ⟨y, j, hy, hj, rfl⟩ := ofDoc_eq_ok.mp ho
    obtain rfl : i = j := by simpa using (stored_id hs).symm.trans hj
    obtain rfl := Option.some.inj hob
    have hcls : y.cls = c := DBClass.cls_fields hy
    have hkind : c.kind = .infos := by rw [← hcls, Fields.kind_cls]; exact hk
    refine ⟨d, hkind ▸ hs, ?_⟩
    rw [hcls, DBClass.bare_fields hy]
    exact hy

theorem free (h : Recorded w) (p : ℕ) : Recorded (w.free p) := by
  refine h.back (fun _ _ hd => hd) le_rfl fun q b' x' hq _ => .inl ?_
  rw [Lib.Conf.heap_free, Lib.Heap.get_free] at hq
  split_ifs at hq
  exact ⟨b', x', hq, rfl, rfl⟩

theorem setChanged (h : Recorded w) (b : Bool) : Recorded (w.setChanged k b) := ⟨h.shape, h.below, h.reads⟩

theorem setCash (h : Recorded w) (l : List ℕ) : Recorded (w.setCash k l) := ⟨h.shape, h.below, h.reads⟩

theorem own (h : Recorded w) {p : ℕ} {n : ℤ} {u : Unit} (hr : run (Cbt.own p n) w = .ok (u, w')) : Recorded w' := by
  obtain ⟨b, x, hp, rfl⟩ := run_own_iff.mp hr
  exact h.put hp rfl rfl

theorem micro {L : Loads} (h : Recorded w) (hm : Micro L w w') : Recorded w' := by
  cases hm with
  | load hm hc hs hb hk hx =>
    refine (h.push fun b' hb' hk' => ?_).setCash _
    obtain rfl := Option.some.inj hb'
    exact ⟨_, by rw [← hk', hk]; exact hs, by rw [DBClass.bare_fields hx]; exact hx⟩
  | put hp hs =>
    refine h.put hp ?_ hs.bare
    have hcore := congrArg (Option.map Prod.fst) hs.core
    simpa [Option.map_map, Function.comp_def, IFromDB.core] using hcore
  | push ho => exact h.push_builds (.inl ho)
  | reap => exact h.free _

theorem quiet {L : Loads} (h : Recorded w) (hq : Quiet L w w') : Recorded w' := by
  induction hq with
  | refl => exact h
  | tail _ hm ih => exact ih.micro hm

/-! ### Writes -/

/-- An object of a concrete class writes a record of its class with its own values. -/
theorem written {h : Memory} {x : Fields} {d : Doc} (hx : x.cls ≠ .additionalInfoDB) (hd : x.toDoc h = .ok d) (i : Oid) :
    x.kind.Shaped (("_id", .oid i) :: d) ∧ x.cls.fields (("_id", .oid i) :: d) = .ok x.bare := by
  obtain ⟨ref, members, -, rfl⟩ := toDoc_eq_ok.mp hd
  exact ⟨shaped_written hx ref members i, fields_written x ref members i⟩

/-- Each reference is written as the object the member designates. -/
theorem ref_written {h : Memory} {x : Fields} {d : Doc} (hd : x.toDoc h = .ok d) (i : Oid) {f : RefField}
    (hf : f ∈ x.cls.refs) : ∃ v u, x.ref f = some v ∧ v.value h = .ok u ∧ Doc.get? (("_id", .oid i) :: d) f.key = some u := by
  obtain ⟨ref, members, hw, rfl⟩ := toDoc_eq_ok.mp hd
  obtain ⟨v, hv⟩ := Fields.mem_refs.mp hf
  refine ⟨v, ref f, hv, hw.1 f v hv, ?_⟩
  rw [Doc.get?_cons, if_neg (by cases f <;> decide), get?_written hf]

/-- The objects of one stored info have one class and one set of values. -/
theorem bare_eq (h : Recorded w) (hc : Concrete w) {p q : ℕ} {b b' : IFromDB} {x y : Fields} {d : Doc}
    (hp : w.heap.get p = some ⟨some b, x⟩) (hq : w.heap.get q = some ⟨some b', y⟩) (hx : x.kind = .infos)
    (hy : y.kind = .infos) (hid : b.id = b'.id) (hd : w.stored .infos b.id = some d) : x.bare = y.bare := by
  have hrx := h.reads p b x d hp hx hd
  have hry := h.reads q b' y d hq hy (hid ▸ hd)
  have hcls : x.cls = y.cls := (h.shape _ _ hd).unique (by rw [Fields.kind_cls, hx]) (by rw [Fields.kind_cls, hy])
    (hc p _ hp) (hc q _ hq) ⟨_, hrx⟩ ⟨_, hry⟩
  rw [hcls, hry] at hrx
  exact (Except.ok.inj hrx).symm

theorem update (h : Recorded w) (hc : Concrete w) {el : ℕ} {r : Bool}
    (hu : run (Controller.update k el) w = .ok (r, w')) : Recorded w' := by
  obtain ⟨b, x, d, hd, hel, rfl, hs, -, rfl⟩ := run_update_iff.mp hu
  obtain ⟨d', hd', rfl⟩ := toDoc_db_iff.mp hd
  obtain ⟨hshape, hwrite⟩ := written (hc el _ hel) hd' b.id
  have hstored : ∀ k' o, (w.refresh x.kind el b x _ hd).stored k' o =
      if k' = x.kind ∧ o = b.id then some (("_id", .oid b.id) :: d') else w.stored k' o := stored_refresh hd hs
  have hback : ∀ q b' y, (w.refresh x.kind el b x _ hd).heap.get q = some ⟨some b', y⟩ →
      ∃ b₁, w.heap.get q = some ⟨some b₁, y⟩ ∧ b₁.id = b'.id := by
    intro q b' y hq
    rw [heap_refresh, Lib.Heap.get_set _ hel] at hq
    split_ifs at hq with he
    · obtain ⟨rfl, rfl⟩ : b.withDoc _ = b' ∧ x = y := by simpa using hq
      exact ⟨b, he ▸ hel, rfl⟩
    · exact ⟨b', hq, rfl⟩
  refine ⟨?_, ?_, ?_⟩
  · intro i d₁ hd₁
    rw [hstored] at hd₁
    split_ifs at hd₁ with hk
    · obtain rfl := Option.some.inj hd₁
      rw [hk.1]
      exact hshape
    · exact h.shape i d₁ hd₁
  · intro q b' y hq hy
    obtain ⟨b₁, hq', hid⟩ := hback q b' y hq
    exact hid ▸ h.below q b₁ y hq' hy
  · intro q b' y d₁ hq hy hd₁
    obtain ⟨b₁, hq', hid⟩ := hback q b' y hq
    rw [hstored] at hd₁
    split_ifs at hd₁ with hk
    · obtain rfl := Option.some.inj hd₁
      obtain ⟨d₀, hd₀⟩ := Option.isSome_iff_exists.mp hs
      rw [← hk.1] at hd₀
      have hbare : x.bare = y.bare := h.bare_eq hc hel hq' hk.1.symm hy (hk.2.symm.trans hid.symm) hd₀
      rw [← hbare, ← Fields.cls_of_bare hbare]
      exact hwrite
    · exact h.reads q b₁ y d₁ hq' hy (hid ▸ hd₁)

theorem post (h : Recorded w) (hc : Concrete w) {e : ℕ} {x : Fields} {d : Doc} (he : w.heap.get e = some ⟨none, x⟩)
    (hd : x.toDoc w.heap = .ok d) : Recorded (w.post x.kind e d) := by
  have hback : ∀ q b y, (w.post x.kind e d).heap.get q = some ⟨some b, y⟩ → w.heap.get q = some ⟨some b, y⟩ := by
    intro q b y hq
    rw [heap_post, Lib.Heap.get_free] at hq
    split_ifs at hq
    exact hq
  refine ⟨?_, ?_, ?_⟩
  · intro i d₁ hd₁
    rw [stored_post] at hd₁
    split_ifs at hd₁ with hk
    · obtain rfl := Option.some.inj hd₁
      rw [hk.1]
      exact (written (hc e _ he) hd _).1
    · exact h.shape i d₁ hd₁
  · intro q b y hq hy
    exact Nat.lt_succ_of_lt (h.below q b y (hback q b y hq) hy)
  · intro q b y d₁ hq hy hd₁
    have hlt := h.below q b y (hback q b y hq) hy
    rw [stored_post, if_neg fun hk => hlt.ne hk.2] at hd₁
    exact h.reads q b y d₁ (hback q b y hq) hy hd₁

theorem deleted (h : Recorded w) {oid : Oid} (hd : Deleted w k oid w') : Recorded w' := by
  obtain ⟨p, b, x, db, -, -, rfl, hdb⟩ := hd.effect
  refine h.back ?_ hd.next.ge fun q b' y hq _ => .inl ?_
  · intro i d hs
    rw [Lib.Conf.stored_setEnv, hdb] at hs
    split_ifs at hs
    exact hs
  · obtain ⟨b₁, hq₁, hid⟩ := hd.back hq
    exact ⟨b₁, y, hq₁, hid, rfl⟩

/-! ### Members and owners -/

theorem enrolled (h : Recorded w) (hw : Sound w) (hc : Concrete w) {this stud : ℕ} (he : Enrolled w this stud w') :
    Recorded w' := by
  obtain ⟨bs, s, c, g, w₂, w₃, w₄, -, hg, h₂, h₃, h₄, h₅⟩ := he.steps
  have c₁ : Concrete (w.put this ⟨c, .group { g with students := g.students ++ [stud] }⟩) := hc.put hg rfl
  have r₁ : Recorded (w.put this ⟨c, .group { g with students := g.students ++ [stud] }⟩) := h.put hg rfl rfl
  have s₂ := ((steady_assignStudents hg (g.students ++ [stud])).trans (steady_update h₂)).sound hw
  have c₂ := concrete_update this _ _ _ h₂ c₁
  have r₃ := (r₁.update c₁ h₂).quiet (quiet_setRef s₂ h₃)
  exact (r₃.update (concrete_setRef _ _ _ _ _ _ h₃ c₂) h₄).own h₅

theorem expelled (h : Recorded w) (hw : Sound w) (hc : Concrete w) {this stud : ℕ} (he : Expelled w this stud w') :
    Recorded w' := by
  obtain ⟨bs, s, c, g, l₁, p, l₂, w₂, w₃, w₄, -, hg, -, -, -, h₂, h₃, h₄, h₅⟩ := he.steps
  have c₁ : Concrete (w.put this ⟨c, .group { g with students := l₁ ++ l₂ }⟩) := hc.put hg rfl
  have r₁ : Recorded (w.put this ⟨c, .group { g with students := l₁ ++ l₂ }⟩) := h.put hg rfl rfl
  have s₂ := ((steady_assignStudents hg (l₁ ++ l₂)).trans (steady_update h₂)).sound hw
  have c₂ := concrete_update this _ _ _ h₂ c₁
  have r₃ := (r₁.update c₁ h₂).quiet (quiet_setRef s₂ h₃)
  exact (r₃.update (concrete_setRef _ _ _ _ _ _ h₃ c₂) h₄).own h₅

theorem attached (h : Recorded w) (hw : Sound w) (hc : Concrete w) {acc res : ℕ} (ha : Attached w acc res w') :
    Recorded w' := by
  obtain ⟨w₁, w₂, h₁, h₂, h₃⟩ := ha.steps
  have r₁ := h.quiet (quiet_setRef hw h₁)
  exact ((r₁.update (concrete_setRef _ _ _ _ _ _ h₁ hc) h₂).setCash _).own h₃

theorem grouped (h : Recorded w) (hw : Sound w) (hc : Concrete w) {temp : ℕ} (hg : Grouped w temp w') :
    Recorded w' ∧ Concrete w' := by
  have first : ∀ {v v' : World} {r : Option ℕ}, Recorded v → Sound v → Concrete v →
      run (StudentInfoDB.getGroup temp) v = .ok (r, v') → Recorded v' ∧ Sound v' ∧ Concrete v' := by
    intro v v' r hr hs hc h₁
    have hq := quiet_getter (g := .getStudentGroup) hs h₁
    exact ⟨hr.quiet hq, hq.sound hs, concrete_getter .getStudentGroup temp _ _ _ h₁ hc⟩
  cases hg with
  | none h₁ =>
    obtain ⟨r₁, -, c₁⟩ := first h hw hc h₁
    exact ⟨r₁, c₁⟩
  | some h₁ h₂ he =>
    obtain ⟨r₁, s₁, c₁⟩ := first h hw hc h₁
    obtain ⟨r₂, s₂, c₂⟩ := first r₁ s₁ c₁ h₂
    exact ⟨r₂.enrolled s₂ c₂ he, concrete_addStudent _ _ _ _ _ (run_addStudent_iff.mpr ⟨rfl, he⟩) c₂⟩

theorem infoAdded (h : Recorded w) (hw : Sound w) (hc : Concrete w) {id : Oid} {t : AccountType} {r : Option ℕ}
    (ha : InfoAdded w id t r w') : Recorded w' := by
  have hpush : ∀ {c : DBClass} {d : Doc} {o : Obj}, w.stored .infos id = some d → c.ofDoc d = .ok o → c.kind = .infos →
      c ≠ .additionalInfoDB → Recorded (w.push o) ∧ Concrete (w.push o) := by
    intro c d o hs ho hk hne
    obtain ⟨x, i, hx, -, rfl⟩ := ofDoc_eq_ok.mp ho
    exact ⟨h.push_builds (.inr ⟨c, id, d, hk ▸ hs, ho⟩), hc.push (DBClass.cls_fields hx ▸ hne)⟩
  cases ha with
  | admin => exact h
  | student hs ho hgo hgr ha =>
    rename_i d o acc w₁ w₂
    obtain ⟨r₀, c₀⟩ := hpush hs ho rfl (by simp)
    have q₁ := quiet_getter (g := .getStudentOwner) (sound_push hw o) hgo
    have s₁ := q₁.sound (sound_push hw o)
    obtain ⟨r₂, c₂⟩ := (r₀.quiet q₁).grouped s₁ (concrete_getter .getStudentOwner _ _ _ _ hgo c₀) hgr
    exact r₂.attached ((hgr.pending s₁).sound s₁) c₂ ha
  | teacher hs ho hgo ha =>
    rename_i d o acc w₁
    obtain ⟨r₀, c₀⟩ := hpush hs ho rfl (by simp)
    have q₁ := quiet_getter (g := .getTeacherOwner) (sound_push hw o) hgo
    exact (r₀.quiet q₁).attached (q₁.sound (sound_push hw o)) (concrete_getter .getTeacherOwner _ _ _ _ hgo c₀) ha

end Recorded

/-! ### Every run -/

/-- The states in which a listing of the infos makes no object: it finds every one it lists in the cache. -/
def Action.findsInfos (a : Action) (w : World) : Prop :=
  match a with
  | .getAll .infos => w.isChanged .infos = true → ∀ o d, w.stored .infos o = some d →
      Controller.admits .infos d = .ok true → w.cached .infos o ≠ none
  | _ => True

theorem concrete_action {a : Action} (ha : a ≠ .getAll .infos) : MakesConcrete a.cmd := by
  cases a with
  | getFromDB k oid t =>
    refine MakesConcrete.bind ?_ fun _ => .pure _
    unfold Cbt.getFromDB
    split_ifs with hk
    · exact concrete_infosGetFromDB oid t
    · exact concrete_getFromDB hk oid
  | getAll k => exact (concrete_getAll (by simpa using ha)).bind fun _ => .pure _
  | getAllTeachers =>
    exact ((concrete_call _).bind fun _ => concrete_collect (by simp) _ _ _).bind fun _ => .pure _
  | getAllSchedulesinDate date group =>
    exact ((concrete_deref _).bind fun p => (concrete_fromDB p).bind fun _ => (concrete_call _).bind fun _ =>
      concrete_collect (by simp) _ _ _).bind fun _ => .pure _
  | findFullAccount l =>
    refine MakesConcrete.bind ?_ fun _ => .pure _
    refine (concrete_call _).bind fun d => (concrete_value d).bind fun d => ?_
    exact (concrete_construct (by simp) d).bind fun p => (concrete_pushBack p).bind fun _ => .pure _
  | new x => exact (concrete_newObj x.cls_ne).bind fun _ => .pure _
  | add k e t =>
    refine MakesConcrete.bind ?_ fun _ => .pure _
    unfold Cbt.add
    split_ifs with hk
    · exact concrete_infosAdd e t
    · exact concrete_add hk e
  | delete k oid => exact (concrete_delete oid).bind fun _ => .pure _
  | update k el => exact (concrete_update el).bind fun _ => .pure _
  | setRef f this v => exact concrete_setRef f this v
  | setStudents this l => exact concrete_setStudents this l
  | get g this => exact (concrete_getter g this).bind fun _ => .pure _
  | getStudents this => exact (concrete_getStudents this).bind fun _ => .pure _
  | addStudent this stud => exact (concrete_addStudent this _).bind fun _ => .pure _
  | deleteStudent this stud => exact (concrete_deleteStudent this _).bind fun _ => .pure _

/-- A listing of the infos that makes no object changes at most the flag. -/
theorem listed_infos (hw : Sound w) (hs : Action.Step (.getAll .infos) w w')
    (hg : Action.findsInfos (.getAll .infos) w) : w' = w ∨ w' = w.setChanged .infos false := by
  simp only [Action.Step, Action.cmd, run_bind_iff, run_pure_iff] at hs
  obtain ⟨_, _, hs, -, rfl⟩ := hs
  rcases run_getAll_iff.mp hs with ⟨-, -, rfl⟩ | ⟨hc, w₁, h₁, rfl⟩
  · exact .inl rfl
  · have hdocs : ∀ d ∈ (w.env.coll .infos).docs, ∀ o, Controller.admits .infos d = .ok true →
        d.get? "_id" = some (.oid o) → w.cached .infos o ≠ none :=
      fun d hd o ha hi => hg hc o d (Collection.get?_of_mem hd hi) ha
    rw [collect_of_cached (hw.live .infos) hdocs h₁]
    exact .inr rfl

theorem Recorded.outcome {a : Action} (h : Recorded w) (hw : Sound w) (hc : Concrete w) (ho : Outcome w a w') :
    Recorded w' := by
  cases ho with
  | quiet hq => exact h.quiet hq
  | listed _ _ hq => exact (h.quiet hq).setChanged false
  | loggedIn hd ho =>
    obtain ⟨x, i, hx, hi, rfl⟩ := ofDoc_eq_ok.mp ho
    exact (h.push_builds (.inr ⟨.accountDB, i, _, account?_stored hd hi, ho⟩)).setCash _
  | added hk he hx hd ho =>
    rename_i k e t x d o
    subst hx
    obtain ⟨y, i, hy, -, rfl⟩ := ofDoc_eq_ok.mp ho
    refine ((h.post hc he hd).push fun b _ hy' => ?_).setCash _
    have hkind : y.kind = x.kind := Fields.kind_of_dbClass (DBClass.cls_fields hy)
    exact absurd (hkind.symm.trans hy') hk
  | infoAdded he hx hd ha =>
    rw [← hx] at ha
    exact (h.post hc he hd).infoAdded (hw.post he _) (hc.post _) ha
  | deleted hd => exact h.deleted hd
  | updated hu => exact h.update hc hu
  | enrolled he => exact h.enrolled hw hc he
  | expelled he => exact h.expelled hw hc he

/-- An action whose listing of the infos makes no object keeps the objects concrete and as their records. -/
theorem recorded_step {a : Action} (h : Recorded w) (hw : Sound w) (hc : Concrete w) (hs : a.Step w w')
    (hg : a.findsInfos w) : Recorded w' ∧ Concrete w' := by
  by_cases ha : a = .getAll .infos
  · subst ha
    rcases listed_infos hw hs hg with rfl | rfl
    · exact ⟨h, hc⟩
    · exact ⟨h.setChanged false, hc⟩
  · exact ⟨h.outcome hw hc (outcome_of_step hw hs), concrete_action ha _ _ _ hs hc⟩

/-- A document is a student's record, or a teacher's. -/
inductive Doc.IsRecord (d : Doc) : DBClass → Prop
  | student (h : d.IsOf .studentInfoDB) (hf : d.get? "Faculty" = none) : IsRecord d .studentInfoDB
  | teacher (h : d.IsOf .teacherInfoDB) (hc : d.get? "Curs" = none) : IsRecord d .teacherInfoDB

namespace Doc.IsRecord

variable {d : Doc} {c : DBClass}

theorem isOf (h : d.IsRecord c) : d.IsOf c := by
  cases h with
  | student h => exact h
  | teacher h => exact h

theorem kind (h : d.IsRecord c) : c.kind = .infos ∧ c ≠ .additionalInfoDB := by cases h <;> exact ⟨rfl, by simp⟩

theorem shaped (h : d.IsRecord c) : Kind.infos.Shaped d := by
  cases h with
  | student h hf => exact .inl ⟨h, hf⟩
  | teacher h hc => exact .inr ⟨h, hc⟩

/-- What reads as a concrete class is a record of that class. -/
theorem of_fields (hd : Kind.infos.Shaped d) (hk : c.kind = .infos) (hc : c ≠ .additionalInfoDB)
    (hx : ∃ x, c.fields d = .ok x) : d.IsRecord c := by
  rcases hd with ⟨hof, hf⟩ | ⟨hof, hf⟩
  · have he := Kind.Shaped.unique (.inl ⟨hof, hf⟩) hk rfl hc (by simp) hx hof.fields
    subst he
    exact .student hof hf
  · have he := Kind.Shaped.unique (.inr ⟨hof, hf⟩) hk rfl hc (by simp) hx hof.fields
    subst he
    exact .teacher hof hf

end Doc.IsRecord

/-- A record has the fields of another one: it is read with the same values, and under the key of each reference both
have an id, the same one, or neither has. -/
structure Doc.Keeps (d : Doc) (c : DBClass) (d' : Doc) : Prop where
  values : c.fields d' = c.fields d
  refs : ∀ f ∈ c.refs, ∃ u u', d.get? f.key = some u ∧ d'.get? f.key = some u' ∧ u'.oid? = u.oid?

/-- The infos keep their concrete class: a cached object is of the class of its stored record, a look-up under the type
of the record answers with an object of that class and with the record's values, an update of a cached object stores a
record of its class with the same values, and it keeps every field exactly when each pointer of the object stands for
what the record names. It does after its getter answered with an object. -/
structure KeepsClasses (w : World) : Prop where
  cached : ∀ p ∈ w.cash .infos, ∃ b x, w.heap.get p = some ⟨some b, x⟩ ∧
    ∀ d c, w.stored .infos b.id = some d → d.IsRecord c → x.cls = c
  answers : ∀ oid d t c, w.stored .infos oid = some d → d.IsRecord c → InfosController.classOf t = some c →
    ∃ p b x w₁, run (InfosController.getFromDB oid t) w = .ok (some p, w₁) ∧ w₁.heap.get p = some ⟨some b, x⟩ ∧
      b.id = oid ∧ x.cls = c ∧ c.fields d = .ok x.bare
  values : ∀ p ∈ w.cash .infos, ∀ b x d c r w₁, w.heap.get p = some ⟨some b, x⟩ → w.stored .infos b.id = some d →
    d.IsRecord c → run (Controller.update .infos p) w = .ok (r, w₁) →
      ∃ d', w₁.stored .infos b.id = some d' ∧ d'.IsRecord c ∧ c.fields d' = c.fields d
  update : ∀ p ∈ w.cash .infos, ∀ b x d c, w.heap.get p = some ⟨some b, x⟩ → w.stored .infos b.id = some d →
    d.IsRecord c → ((∃ r w₁ d', run (Controller.update .infos p) w = .ok (r, w₁) ∧ w₁.stored .infos b.id = some d' ∧
      d'.IsRecord c ∧ d.Keeps c d') ↔
        ∀ f ∈ c.refs, ∃ v, x.ref f = some v ∧ v.StandsFor w.heap ((d.get? f.key).bind Bson.oid?))
  getters : ∀ p ∈ w.cash .infos, ∀ g b x q w₁, w.heap.get p = some ⟨some b, x⟩ → x.ref g.field = some .null →
    run (Getter.call g p) w = .ok (some q, w₁) → w₁.refOf p g.field = some (.to q) ∧
      (Pointer.to q).StandsFor w₁.heap ((b.doc.get? g.key).bind Bson.oid?)

/-- Look-ups of one record under one type answer with the same class and the same values in both worlds. -/
def AnswerAlike (w w' : World) : Prop :=
  ∀ oid d t c, w.stored .infos oid = some d → w'.stored .infos oid = some d → d.IsRecord c →
    InfosController.classOf t = some c → ∃ p p' b b' x x' w₁ w₁',
      run (InfosController.getFromDB oid t) w = .ok (some p, w₁) ∧ w₁.heap.get p = some ⟨some b, x⟩ ∧
      run (InfosController.getFromDB oid t) w' = .ok (some p', w₁') ∧ w₁'.heap.get p' = some ⟨some b', x'⟩ ∧
      x.cls = x'.cls ∧ x.bare = x'.bare

theorem KeepsClasses.answerAlike (h : KeepsClasses w) (h' : KeepsClasses w') : AnswerAlike w w' := by
  intro oid d t c hd hd' hr ht
  obtain ⟨p, b, x, w₁, hrun, hp, -, hc, hx⟩ := h.answers oid d t c hd hr ht
  obtain ⟨p', b', x', w₁', hrun', hp', -, hc', hx'⟩ := h'.answers oid d t c hd' hr ht
  exact ⟨p, p', b, b', x, x', w₁, w₁', hrun, hp, hrun', hp', hc.trans hc'.symm, Except.ok.inj (hx.symm.trans hx')⟩

/-- An object of an info is of the class of its record. -/
theorem Recorded.cls_eq (h : Recorded w) (hc : Concrete w) {p : ℕ} {b : IFromDB} {x : Fields} {d : Doc} {c : DBClass}
    (hp : w.heap.get p = some ⟨some b, x⟩) (hx : x.kind = .infos) (hd : w.stored .infos b.id = some d)
    (hr : d.IsRecord c) : x.cls = c :=
  hr.shaped.unique (by rw [Fields.kind_cls, hx]) hr.kind.1 (hc p _ hp) hr.kind.2 ⟨_, h.reads p b x d hp hx hd⟩
    hr.isOf.fields

/-- An update of an object of a record stores a record of its class with the same values. -/
theorem Recorded.record_of_update (h : Recorded w) (hc : Concrete w) {p : ℕ} {b : IFromDB} {x : Fields} {d d' : Doc}
    {c : DBClass} (hp : w.heap.get p = some ⟨some b, x⟩) (hx : x.kind = .infos) (hd : w.stored .infos b.id = some d)
    (hr : d.IsRecord c) (hd' : x.toDoc w.heap = .ok d') :
    Doc.IsRecord (("_id", .oid b.id) :: d') c ∧ c.fields (("_id", .oid b.id) :: d') = c.fields d := by
  have hcls := h.cls_eq hc hp hx hd hr
  obtain ⟨hshape, hwrite⟩ := Recorded.written (hc p _ hp) hd' b.id
  rw [hx] at hshape
  rw [hcls] at hwrite
  refine ⟨.of_fields hshape hr.kind.1 hr.kind.2 ⟨_, hwrite⟩, ?_⟩
  rw [hwrite, ← hcls, h.reads p b x d hp hx hd]

theorem Recorded.keepsClasses (h : Recorded w) (hw : Sound w) (hc : Concrete w) : KeepsClasses w := by
  refine ⟨?_, ?_, ?_, ?_, ?_⟩
  · intro p hp
    obtain ⟨b, x, hx, -, hk⟩ := hw.entry .infos p hp
    exact ⟨b, x, hx, fun d c hd hr => h.cls_eq hc hx hk hd hr⟩
  · intro oid d t c hd hr ht
    cases hca : w.cached .infos oid with
    | some p =>
      obtain ⟨b, x, hx, -, hk⟩ := hw.entry .infos p (Lib.Conf.cached_mem hca)
      have hid : b.id = oid := by simpa [Lib.Conf.idOf_of_get hx] using Lib.Conf.cached_idOf hca
      have hcls := h.cls_eq hc hx hk (hid ▸ hd) hr
      exact ⟨p, b, x, w, (run_infosGetFromDB_iff (hw.live _)).mpr (.hit hca), hx, hid, hcls,
        hcls ▸ h.reads p b x d hx hk (hid ▸ hd)⟩
    | none =>
      obtain ⟨x, hx⟩ := hr.isOf.fields
      have ho : c.ofDoc d = .ok ⟨some { doc := d, id := oid }, x⟩ := ofDoc_eq_ok.mpr ⟨x, oid, hx, stored_id hd, rfl⟩
      refine ⟨_, IFromDB.own 1 { doc := d, id := oid }, x, _, (run_infosGetFromDB_iff (hw.live _)).mpr (.loaded hca hd ht ho),
        ?_, rfl, DBClass.cls_fields hx, ?_⟩
      · simp [Lib.Conf.load, Obj.own]
      · rw [DBClass.bare_fields hx]
        exact hx
  · intro p hp b x d c r w₁ hx hd hr hu
    obtain ⟨b₀, x₀, hx₀, -, hk⟩ := hw.entry .infos p hp
    obtain ⟨rfl, rfl⟩ : b = b₀ ∧ x = x₀ := by simpa [hx] using hx₀
    obtain ⟨b₁, x₁, d₁, hd₁, hp₁, hk₁, hs, -, rfl⟩ := run_update_iff.mp hu
    obtain ⟨rfl, rfl⟩ : b = b₁ ∧ x = x₁ := by simpa [hx] using hp₁
    obtain ⟨d', hd', rfl⟩ := toDoc_db_iff.mp hd₁
    exact ⟨_, (stored_refresh hd₁ hs .infos b.id).trans (if_pos ⟨rfl, rfl⟩), h.record_of_update hc hx hk hd hr hd'⟩
  · intro p hp b x d c hx hd hr
    obtain ⟨b₀, x₀, hx₀, -, hk⟩ := hw.entry .infos p hp
    obtain ⟨rfl, rfl⟩ : b = b₀ ∧ x = x₀ := by simpa [hx] using hx₀
    have hcls := h.cls_eq hc hx hk hd hr
    have hs : (w.stored .infos b.id).isSome := by simp [hd]
    constructor
    · rintro ⟨r, w₁, d₁, hu, hd₁, -, hkeep⟩ f hf
      obtain ⟨b₁, x₁, d₂, hd₂, hp₁, hk₁, -, -, rfl⟩ := run_update_iff.mp hu
      obtain ⟨rfl, rfl⟩ : b = b₁ ∧ x = x₁ := by simpa [hx] using hp₁
      obtain ⟨d', hd', rfl⟩ := toDoc_db_iff.mp hd₂
      obtain rfl := Option.some.inj (((stored_refresh hd₂ hs .infos b.id).trans (if_pos ⟨rfl, rfl⟩)).symm.trans hd₁)
      obtain ⟨v, u, hv, hu, hget⟩ := Recorded.ref_written hd' b.id (hcls ▸ hf)
      obtain ⟨u₀, u₁, h₀, h₁, he⟩ := hkeep.refs f hf
      obtain rfl := Option.some.inj (hget.symm.trans h₁)
      exact ⟨v, hv, standsFor_iff.mpr ⟨u, hu, by rw [h₀, Option.bind_some, he]⟩⟩
    · intro hstands
      have href : ∀ f v, x.ref f = some v → ∃ u, v.value w.heap = .ok u := by
        intro f v hv
        obtain ⟨v', hv', hsf⟩ := hstands f (hcls ▸ Fields.mem_refs.mpr ⟨v, hv⟩)
        obtain rfl := Option.some.inj (hv.symm.trans hv')
        obtain ⟨u, hu, -⟩ := standsFor_iff.mp hsf
        exact ⟨u, hu⟩
      have hmem : ∀ g, x = .group g → ∃ m, membersValue w.heap g.students = .ok m := by
        rintro g rfl
        cases hk
      obtain ⟨ref, members, hwrites⟩ := exists_writes href hmem
      have hd' : x.toDoc w.heap = .ok (x.written ref members) := toDoc_eq_ok.mpr ⟨ref, members, hwrites, rfl⟩
      have hd₁ : Obj.toDoc w.heap ⟨some b, x⟩ = .ok (("_id", .oid b.id) :: x.written ref members) :=
        toDoc_db_iff.mpr ⟨_, hd', rfl⟩
      obtain ⟨hrec, hval⟩ := h.record_of_update hc hx hk hd hr hd'
      refine ⟨true, _, _, run_update_iff.mpr ⟨b, x, _, hd₁, hx, hk, hs, rfl, rfl⟩,
        (stored_refresh hd₁ hs .infos b.id).trans (if_pos ⟨rfl, rfl⟩), hrec, hval, fun f hf => ?_⟩
      obtain ⟨v, u, hv, hu, hget⟩ := Recorded.ref_written hd' b.id (hcls ▸ hf)
      obtain ⟨v', hv', hsf⟩ := hstands f hf
      obtain rfl := Option.some.inj (hv.symm.trans hv')
      obtain ⟨u', hu', he⟩ := standsFor_iff.mp hsf
      obtain rfl := Except.ok.inj (hu.symm.trans hu')
      obtain ⟨u₀, h₀⟩ := hr.isOf.refs f hf
      exact ⟨u₀, u, h₀, hget, by rw [he, h₀, Option.bind_some]⟩
  · intro p _ g b x q w₁ hx hn hr
    have hgot := run_getter hw hr
    obtain ⟨⟨bq, y, hq, hb⟩, href⟩ := hgot.alive hw
    obtain ⟨b', x', i, hx', hkey, hcached⟩ := hgot.cached_of_null hw ((refOf_of_get hx _).trans hn)
    obtain ⟨rfl, rfl⟩ : b = b' ∧ x = x' := by simpa [hx] using hx'
    have hid : bq.id = i := by simpa [Lib.Conf.idOf_of_get hq] using Lib.Conf.cached_idOf hcached
    rw [hkey, Option.bind_some, Bson.oid?_oid, ← hid]
    exact ⟨href, .there hq hb⟩

theorem recorded_start {db : Database} (hdb : ∀ i d, db.get? .infos i = some d → Kind.infos.Shaped d) :
    Recorded (World.start db) ∧ Concrete (World.start db) := by
  have hnone : ∀ p, (World.start db).heap.get p = none := fun p => by simp [World.start, Process.init, Lib.Conf.heap]
  refine ⟨⟨hdb, fun p b x hp => ?_, fun p b x d hp => ?_⟩, fun p o hp => ?_⟩
  · simp [hnone] at hp
  · simp [hnone] at hp
  · simp [hnone] at hp

theorem recorded_of_run {db : Database} {as : List Action}
    (hdb : ∀ i d, db.get? .infos i = some d → Kind.infos.Shaped d)
    (hr : Lib.Run Action.Step Action.findsInfos (World.start db) as w) : Sound w ∧ Recorded w ∧ Concrete w := by
  refine hr.invariant (I := fun w => Sound w ∧ Recorded w ∧ Concrete w) ⟨sound_start db, recorded_start hdb⟩ ?_
  rintro a w w' ⟨hw, h, hc⟩ hg hs
  exact ⟨(outcome_of_step (a := a) hw hs).sound hw, recorded_step h hw hc hs hg⟩

/-- Where no listing of the infos makes an object, the infos keep their concrete class in every state reached, updates
keep the fields of the records as far as the getters were called, and any two runs from a database answer alike. -/
theorem keepsClasses_of_run {db : Database} {as : List Action}
    (hdb : ∀ i d, db.get? .infos i = some d → Kind.infos.Shaped d)
    (hr : Lib.Run Action.Step Action.findsInfos (World.start db) as w) :
    KeepsClasses w ∧ ∀ bs w', Lib.Run Action.Step Action.findsInfos (World.start db) bs w' → AnswerAlike w w' := by
  obtain ⟨hw, h, hc⟩ := recorded_of_run hdb hr
  refine ⟨h.keepsClasses hw hc, fun bs w' hr' => ?_⟩
  obtain ⟨hw', h', hc'⟩ := recorded_of_run hdb hr'
  exact (h.keepsClasses hw hc).answerAlike (h'.keepsClasses hw' hc')

/-- The record of a teacher that an account owns. -/
def teacherRecord : Doc :=
  [("FirstName", .string "first"), ("SecondName", .string "second"), ("Owner", .oid 0), ("Faculty", .string "faculty"),
    ("LessonsTypes", .array [])]

/-- A teacher with its account. -/
def ownedTeacher : Database :=
  (Database.empty.insert .accounts [("Login", .string "login"), ("Password", .string "password"), ("AccountType", .int32 1),
    ("AdditionalInfo", .oid 1)]).insert .infos teacherRecord

theorem stored_ownedTeacher {i : Oid} {d : Doc} (h : ownedTeacher.get? .infos i = some d) :
    i = 1 ∧ d = Collection.withId 1 teacherRecord := by
  unfold ownedTeacher at h
  rw [Database.get?_insert] at h
  split_ifs at h with hi
  · obtain rfl : i = 1 := hi.2
    exact ⟨rfl, (Option.some.inj h).symm⟩
  · rw [Database.get?_insert, if_neg (by simp)] at h
    simp [Database.get?, Database.empty, Collection.get?, Collection.empty] at h

theorem isRecord_teacherRecord : (Collection.withId 1 teacherRecord).IsRecord .teacherInfoDB := by
  refine .teacher ⟨⟨.teacher { firstName := "first", secondName := "second", faculty := "faculty" }, by decide⟩, ?_⟩ (by decide)
  intro f hf
  obtain rfl : f = .owner := by simpa [DBClass.refs] using hf
  exact ⟨.oid 0, by decide⟩

theorem shaped_ownedTeacher (i : Oid) (d : Doc) (h : ownedTeacher.get? .infos i = some d) : Kind.infos.Shaped d := by
  obtain ⟨-, rfl⟩ := stored_ownedTeacher h
  exact isRecord_teacherRecord.shaped

/-- A teacher's info is looked up, its owner is asked for, the infos are listed, and the info is updated: the record still
names its owner. -/
theorem keepsClasses_of_listing : ∃ w d, w.cash .infos = [0] ∧ w.isChanged .infos = false ∧ w.stored .infos 1 = some d ∧
    d.get? "Owner" = some (.oid 0) ∧ d.get? "Faculty" = some (.string "faculty") ∧ KeepsClasses w ∧
      ∀ bs w', Lib.Run Action.Step Action.findsInfos (World.start ownedTeacher) bs w' → AnswerAlike w w' := by
  have hplay : (play [.getFromDB .infos 1 .teacher, .get .getTeacherOwner 0] (World.start ownedTeacher)).any (fun w =>
      w.cached .infos 1 = some 0 ∧ ((Action.getAll .infos).next? w).any fun w₁ =>
        ((Action.update .infos 0).next? w₁).any fun w' => w'.cash .infos = [0] ∧ w'.isChanged .infos = false ∧
          (w'.stored .infos 1).any fun d => d.get? "Owner" = some (.oid 0) ∧
            d.get? "Faculty" = some (.string "faculty")) = true := by decide
  obtain ⟨w, hw, h⟩ := Option.any_eq_true .. |>.mp hplay
  obtain ⟨hc, h⟩ := of_decide_eq_true h
  obtain ⟨w₁, hw₁, h⟩ := Option.any_eq_true .. |>.mp h
  obtain ⟨w', hw', h⟩ := Option.any_eq_true .. |>.mp h
  obtain ⟨hcash, hch, h⟩ := of_decide_eq_true h
  obtain ⟨d, hd, h⟩ := Option.any_eq_true .. |>.mp h
  obtain ⟨howner, hfaculty⟩ := of_decide_eq_true h
  obtain ⟨v, hv, hwv⟩ := Option.bind_eq_some_iff.mp hw
  obtain ⟨v', hv', hwv⟩ := Option.bind_eq_some_iff.mp hwv
  obtain rfl := Option.some.inj hwv
  have hs := Action.step_of_next? hv
  have hs' := Action.step_of_next? hv'
  have hstored : v'.stored = (World.start ownedTeacher).stored := by
    cases outcome_of_step (sound_start ownedTeacher) hs with
    | quiet hq =>
      cases outcome_of_step (hq.sound (sound_start ownedTeacher)) hs' with
      | quiet hq' => exact hq'.stored.trans hq.stored
  have hguard : Action.findsInfos (.getAll .infos) v' := by
    intro _ o d hd _
    rw [hstored] at hd
    obtain ⟨rfl, -⟩ := stored_ownedTeacher hd
    simp [hc]
  have hrun : Lib.Run Action.Step Action.findsInfos (World.start ownedTeacher) _ w' :=
    .snoc (.snoc (.snoc (.snoc .nil (by trivial) hs) (by trivial) hs') hguard (Action.step_of_next? hw₁)) (by trivial)
      (Action.step_of_next? hw')
  obtain ⟨hk, halike⟩ := keepsClasses_of_run shaped_ownedTeacher hrun
  exact ⟨w', d, hcash, hch, hd, howner, hfaculty, hk, halike⟩

/-- A listing before any look-up caches an object without the class and the values of its record. -/
theorem not_keepsClasses_of_every_run :
    ¬ ∀ db as w, (∀ i d, db.get? .infos i = some d → Kind.infos.Shaped d) →
      Lib.Run Action.Step Lib.Free (World.start db) as w → KeepsClasses w := by
  intro h
  have hplay : ((Action.getAll .infos).next? (World.start ownedTeacher)).any (fun w =>
      w.cash .infos = [0] ∧ w.heap.get 0 = some ⟨some { doc := Collection.withId 1 teacherRecord, id := 1 }, .additionalInfo⟩ ∧
        w.stored .infos 1 = some (Collection.withId 1 teacherRecord)) = true := by decide
  obtain ⟨w, hw, hr⟩ := Option.any_eq_true .. |>.mp hplay
  obtain ⟨hcash, hget, hs⟩ := of_decide_eq_true hr
  have hk := h ownedTeacher _ w shaped_ownedTeacher (.snoc .nil trivial (Action.step_of_next? hw))
  obtain ⟨b, x, hx, hcls⟩ := hk.cached 0 (by simp [hcash])
  obtain ⟨rfl, rfl⟩ : { doc := Collection.withId 1 teacherRecord, id := 1 } = b ∧ Fields.additionalInfo = x := by
    simpa using hget.symm.trans hx
  cases hcls _ _ hs isRecord_teacherRecord

end Cbt
