import Cbt.Effects.Answering
import Cbt.Effects.Storing

/-! Counts that no getter looks at. A getter reads the count of an object only when
the object no longer exists, so two memories that differ in the counts of objects
that exist give the same answers, to one getter and to any number of them called
one after the other, and describe the same documents. -/

namespace Cbt

open Lib.Command (run_bind_iff run_pure_iff)

variable {w w₁ w₂ w' : World}

/-- What a getter answers about has its member. -/
theorem GotBy.member {g : Getter} {this : ℕ} {r : Option ℕ} (h : GotBy w g this r w') :
    ∃ c x, w.heap.get this = some ⟨c, x⟩ ∧ g.field ∈ x.cls.refs := by
  cases h with
  | settled ho hv => exact ⟨_, _, ho, Fields.mem_refs.mpr ⟨_, hv⟩⟩
  | absent ho hn | missed ho hn | loaded ho hn => exact ⟨_, _, ho, Fields.mem_refs.mpr ⟨_, hn⟩⟩

/-- The two memories differ in the counts of objects that exist, and in nothing else. -/
structure Recounted (w w₂ : World) : Prop where
  env : w₂.env = w.env
  ctl : w₂.mem.ctl = w.mem.ctl
  next : w₂.heap.next = w.heap.next
  get : ∀ q, w₂.heap.get q = w.heap.get q ∨ ∃ b x n, w.heap.get q = some ⟨some b, x⟩ ∧ b.isExist = true ∧
    w₂.heap.get q = some ⟨some (b.own n), x⟩

namespace Recounted

theorem refl (w : World) : Recounted w w := ⟨rfl, rfl, rfl, fun _ => .inl rfl⟩

theorem symm (h : Recounted w w₂) : Recounted w₂ w := by
  refine ⟨h.env.symm, h.ctl.symm, h.next.symm, fun q => ?_⟩
  rcases h.get q with hq | ⟨b, x, n, hq, hb, hq₂⟩
  · exact .inl hq.symm
  · refine .inr ⟨b.own n, x, -n, hq₂, hb, ?_⟩
    rw [hq]
    simp [IFromDB.own]

theorem trans (h : Recounted w w₁) (h' : Recounted w₁ w₂) : Recounted w w₂ := by
  refine ⟨h'.env.trans h.env, h'.ctl.trans h.ctl, h'.next.trans h.next, fun q => ?_⟩
  rcases h.get q with hq | ⟨b, x, n, hq, hb, hq₁⟩
  · rw [← hq]
    exact h'.get q
  · rcases h'.get q with hq₂ | ⟨b', x', m, hq', -, hq₂⟩
    · exact .inr ⟨b, x, n, hq, hb, hq₂.trans hq₁⟩
    · obtain ⟨rfl, rfl⟩ : b.own n = b' ∧ x = x' := by simpa [hq₁] using hq'
      refine .inr ⟨b, x, n + m, hq, hb, ?_⟩
      rw [hq₂]
      simp [IFromDB.own, Int.add_assoc]

theorem own {p : ℕ} {n : ℤ} {u : Unit} (hp : w.Alive p) (h : run (own p n) w = .ok (u, w')) : Recounted w w' := by
  obtain ⟨b, x, hg, rfl⟩ := run_own_iff.mp h
  obtain ⟨b', x', hg', hb⟩ := hp
  obtain ⟨rfl, rfl⟩ : b = b' ∧ x = x' := by simpa [hg] using hg'
  refine ⟨rfl, rfl, by simp, fun q => ?_⟩
  rw [Lib.Conf.get_put hg]
  split_ifs with hq
  · exact .inr ⟨b, x, n, hq ▸ hg, hb, rfl⟩
  · exact .inl rfl

theorem cash (h : Recounted w w₂) : w₂.cash = w.cash := by
  funext k
  simp only [Lib.Conf.cash, h.ctl]

theorem stored (h : Recounted w w₂) : w₂.stored = w.stored := by
  funext k o
  simp only [Lib.Conf.stored, h.env]

/-- An object keeps its members, and what its part from the database says of it apart from the count. -/
theorem obj (h : Recounted w w₂) {q : ℕ} {c : Option IFromDB} {x : Fields} (hq : w.heap.get q = some ⟨c, x⟩) :
    ∃ n, w₂.heap.get q = some ⟨c.map (IFromDB.own n), x⟩ := by
  rcases h.get q with he | ⟨b, y, n, hg, -, hg₂⟩
  · refine ⟨0, ?_⟩
    rw [he, hq]
    cases c <;> simp [IFromDB.own]
  · obtain ⟨rfl, rfl⟩ : c = some b ∧ x = y := by simpa [hq] using hg
    exact ⟨n, hg₂⟩

/-- What does not exist is as it was. -/
theorem dead (h : Recounted w w₂) {q : ℕ} {b : IFromDB} {x : Fields} (hq : w.heap.get q = some ⟨some b, x⟩)
    (hb : b.isExist = false) : w₂.heap.get q = some ⟨some b, x⟩ := by
  rcases h.get q with he | ⟨b', y, n, hg, hb', -⟩
  · rw [he, hq]
  · obtain ⟨rfl, rfl⟩ : b = b' ∧ x = y := by simpa [hq] using hg
    rw [hb] at hb'
    cases hb'

theorem idOf (h : Recounted w w₂) : w₂.idOf = w.idOf := by
  funext q
  rcases h.get q with he | ⟨b, x, n, hg, -, hg₂⟩
  · simp only [Lib.Conf.idOf, he]
  · rw [Lib.Conf.idOf_of_get hg, Lib.Conf.idOf_of_get hg₂]
    rfl

theorem cached (h : Recounted w w₂) : w₂.cached = w.cached := by
  funext k i
  simp only [Lib.Conf.cached, h.cash, h.idOf]

theorem ident (h : Recounted w w₂) (q : ℕ) : ident w₂.heap q = ident w.heap q := by
  rcases h.get q with he | ⟨b, x, n, hg, -, hg₂⟩
  · simp only [Cbt.ident, header, he]
  · rw [ident_of_get hg, ident_of_get hg₂]
    rfl

theorem sound (h : Recounted w w₂) (hw : Sound w) : Sound w₂ := by
  refine ⟨fun k p hp => ?_, fun k => h.cash ▸ hw.nodup k⟩
  rw [h.cash] at hp
  obtain ⟨b, x, hg, hb, hx⟩ := hw.entry k p hp
  obtain ⟨n, hg₂⟩ := h.obj hg
  exact ⟨b.own n, x, hg₂, hb, hx⟩

/-- The same members are assigned to one object. -/
theorem put (h : Recounted w w₂) {p : ℕ} {c c₂ : Option IFromDB} {x x₂ : Fields} (hp : w.heap.get p = some ⟨c, x⟩)
    (hp₂ : w₂.heap.get p = some ⟨c₂, x₂⟩) (y : Fields) : Recounted (w.put p ⟨c, y⟩) (w₂.put p ⟨c₂, y⟩) := by
  refine ⟨h.env, h.ctl, by simp [h.next], fun q => ?_⟩
  rw [Lib.Conf.get_put hp, Lib.Conf.get_put hp₂]
  split_ifs with hq
  · subst hq
    rcases h.get q with he | ⟨b, z, n, hg, hb, hg₂⟩
    · obtain ⟨rfl, -⟩ : c₂ = c ∧ x₂ = x := by simpa [hp₂, hp] using he
      exact .inl rfl
    · obtain ⟨rfl, rfl⟩ : c = some b ∧ x = z := by simpa [hp] using hg
      obtain ⟨rfl, rfl⟩ : c₂ = some (b.own n) ∧ x₂ = x := by simpa [hp₂] using hg₂
      exact .inr ⟨b, y, n, rfl, hb, rfl⟩
  · exact h.get q

theorem free (h : Recounted w w₂) (p : ℕ) : Recounted (w.free p) (w₂.free p) := by
  refine ⟨h.env, h.ctl, by simp [h.next], fun q => ?_⟩
  simp only [Lib.Conf.heap_free, Lib.Heap.get_free]
  split_ifs
  · exact .inl rfl
  · exact h.get q

theorem load (h : Recounted w w₂) (k : Kind) (o : Obj) : Recounted (w.load k o) (w₂.load k o) := by
  refine ⟨h.env, ?_, by simp [h.next], fun q => ?_⟩
  · simp only [Lib.Conf.load, Lib.Conf.setCash, Lib.Conf.push, Lib.Conf.setHeap, Lib.Conf.cash, h.ctl, h.next]
  · simp only [Lib.Conf.heap_load, Lib.Heap.get_push, h.next]
    split_ifs
    · exact .inl rfl
    · exact h.get q

/-! ### One getter -/

theorem looked (h : Recounted w w₂) {k : Kind} {i : Oid} {c? : Option DBClass} {r : Option ℕ}
    (hl : Looked w k i c? r w') : ∃ w₂', Looked w₂ k i c? r w₂' ∧ Recounted w' w₂' := by
  cases hl with
  | hit hc => exact ⟨w₂, .hit (h.cached ▸ hc), h⟩
  | absent hc hs => exact ⟨w₂, .absent (h.cached ▸ hc) (h.stored ▸ hs), h⟩
  | loaded hc hs hcl ho =>
    rw [← h.next]
    exact ⟨_, .loaded (h.cached ▸ hc) (h.stored ▸ hs) hcl ho, h.load k _⟩

theorem settled (h : Recounted w w₂) {f : RefField} {this p : ℕ} {r : Option ℕ} (hs : Settled w f this p r w') :
    ∃ w₂', Settled w₂ f this p r w₂' ∧ Recounted w' w₂' := by
  cases hs with
  | held hp hb =>
    obtain ⟨n, hp₂⟩ := h.obj hp
    exact ⟨w₂, .held hp₂ hb, h⟩
  | letGo hp hb hn ho =>
    rename_i b x o
    have hp₂ := h.dead hp hb
    have hput : Recounted (w.put p ⟨some (b.own (-1)), x⟩) (w₂.put p ⟨some (b.own (-1)), x⟩) := by
      refine ⟨h.env, h.ctl, by simp [h.next], fun q => ?_⟩
      rw [Lib.Conf.get_put hp, Lib.Conf.get_put hp₂]
      split_ifs
      · exact .inl rfl
      · exact h.get q
    obtain ⟨c, y⟩ := o
    obtain ⟨n, ho₂⟩ := hput.obj ho
    exact ⟨_, .letGo hp₂ hb hn ho₂, hput.put ho ho₂ _⟩
  | freed hp hb hn ht ho =>
    rename_i b x o
    obtain ⟨c, y⟩ := o
    obtain ⟨n, ho₂⟩ := h.obj ho
    have hget : ∀ {v : World} {o : Obj}, v.heap.get this = some o → (v.free p).heap.get this = some o := by
      intro v o hv
      rw [Lib.Conf.heap_free, Lib.Heap.get_free, if_neg ht, hv]
    exact ⟨_, .freed (h.dead hp hb) hb hn ht ho₂, (h.free p).put (hget ho) (hget ho₂) _⟩

theorem classOf (h : Recounted w w₂) (g : Getter) (p : ℕ) : g.classOf w₂ p = g.classOf w p := by
  cases g with
  | getAdditionalInfo =>
    rcases h.get p with he | ⟨b, x, n, hg, -, hg₂⟩
    · simp only [Getter.classOf, he]
    · cases x <;> simp only [Getter.classOf, hg, hg₂]
  | _ => rfl

/-- A getter gives the same answer, and the memories it leaves differ as little. -/
theorem gotBy (h : Recounted w w₂) {g : Getter} {this : ℕ} {r : Option ℕ} (hg : GotBy w g this r w') :
    ∃ w₂', GotBy w₂ g this r w₂' ∧ Recounted w' w₂' := by
  cases hg with
  | settled ho hv hs =>
    rename_i o p
    obtain ⟨c, x⟩ := o
    obtain ⟨n, ho₂⟩ := h.obj ho
    obtain ⟨w₂', hs₂, h'⟩ := h.settled hs
    exact ⟨w₂', .settled ho₂ hv hs₂, h'⟩
  | absent ho hn hv hi =>
    obtain ⟨n, ho₂⟩ := h.obj ho
    exact ⟨w₂, .absent ho₂ hn hv hi, h⟩
  | missed ho hn hv hl hr =>
    obtain ⟨n, ho₂⟩ := h.obj ho
    obtain ⟨w₂', hl₂, h'⟩ := h.looked hl
    refine ⟨w₂', .missed ho₂ hn hv (h.classOf g this ▸ hl₂) fun p hp => ?_, h'⟩
    obtain ⟨⟨c, x⟩, hg, hwants⟩ := hr p hp
    obtain ⟨n, hg₂⟩ := h'.obj hg
    exact ⟨_, hg₂, hwants⟩
  | loaded ho hn hv hl hp hc h₁ =>
    rename_i b x i p o₁ o₂ v
    obtain ⟨c₁, x₁⟩ := o₁
    obtain ⟨c, y⟩ := o₂
    obtain ⟨n, ho₂⟩ := h.obj ho
    obtain ⟨v₂, hl₂, h'⟩ := h.looked hl
    obtain ⟨m, hp₂⟩ := h'.obj hp
    obtain ⟨m₁, h₁₂⟩ := h'.obj h₁
    exact ⟨_, .loaded ho₂ hn hv (h.classOf g this ▸ hl₂) hp₂ hc h₁₂, h'.put h₁ h₁₂ _⟩

theorem getter (h : Recounted w w₂) (hw : Sound w) {g : Getter} {this : ℕ} {r : Option ℕ}
    (hr : run (g.call this) w = .ok (r, w')) : ∃ w₂', run (g.call this) w₂ = .ok (r, w₂') ∧ Recounted w' w₂' := by
  obtain ⟨w₂', hg, h'⟩ := h.gotBy (run_getter hw hr)
  obtain ⟨c, x, ho, hf⟩ := hg.member
  exact ⟨w₂', (run_getter_iff (h.sound hw) ho hf).mpr hg, h'⟩

theorem loadStudents (h : Recounted w w₂) (hw : Sound w) {this : ℕ} {vs : List Element} {u : Unit}
    (hr : run (GroupDB.loadStudents this vs) w = .ok (u, w')) :
    ∃ w₂', run (GroupDB.loadStudents this vs) w₂ = .ok (u, w₂') ∧ Recounted w' w₂' := by
  induction vs generalizing w w₂ with
  | nil =>
    obtain ⟨-, rfl⟩ := (run_pure_iff _).mp hr
    exact ⟨w₂, rfl, h⟩
  | cons v vs ih =>
    obtain ⟨i, r, w₁, rfl, hl, hr⟩ := run_loadStudents_cons_iff.mp hr
    have hl' := (run_infosGetFromDB_iff (hw.live .infos)).mp hl
    obtain ⟨v₁, hl₂, h₁⟩ := h.looked hl'
    have hl₂' := (run_infosGetFromDB_iff ((h.sound hw).live .infos)).mpr hl₂
    have hq : Quiet (fun _ _ => True) w w₁ := reads_infosGetFromDB trivial _ _ _ hl hw
    have hw₁ := hq.sound hw
    rcases hr with ⟨hno, hr⟩ | ⟨p, b, x, rfl, hp, hx, hr⟩
    · obtain ⟨w₂', hr₂, h'⟩ := ih h₁ hw₁ hr
      refine ⟨w₂', run_loadStudents_cons_iff.mpr ⟨i, r, v₁, rfl, hl₂', .inl ⟨hno.imp_right ?_, hr₂⟩⟩, h'⟩
      rintro ⟨p, ⟨c, y⟩, rfl, hp, hy⟩
      obtain ⟨n, hp₂⟩ := h₁.obj hp
      exact ⟨p, _, rfl, hp₂, hy⟩
    · obtain ⟨n, hp₂⟩ := h₁.obj hp
      rcases hr with ⟨hb, hr⟩ | ⟨hb, c, g, hg, hr⟩
      · obtain ⟨w₂', hr₂, h'⟩ := ih h₁ hw₁ hr
        exact ⟨w₂', run_loadStudents_cons_iff.mpr ⟨i, _, v₁, rfl, hl₂', .inr ⟨p, _, x, rfl, hp₂, hx, .inl ⟨hb, hr₂⟩⟩⟩, h'⟩
      · obtain ⟨m, hg₂⟩ := h₁.obj hg
        obtain ⟨w₂', hr₂, h'⟩ := ih (h₁.put hg hg₂ _) (Quiet.sound (L := never) (quiet_assignStudents hg _) hw₁) hr
        exact ⟨w₂', run_loadStudents_cons_iff.mpr
          ⟨i, _, v₁, rfl, hl₂', .inr ⟨p, _, x, rfl, hp₂, hx, .inr ⟨hb, _, g, hg₂, hr₂⟩⟩⟩, h'⟩

theorem getStudents (h : Recounted w w₂) (hw : Sound w) {this : ℕ} {r : List ℕ}
    (hr : run (GroupDB.getStudents this) w = .ok (r, w')) :
    ∃ w₂', run (GroupDB.getStudents this) w₂ = .ok (r, w₂') ∧ Recounted w' w₂' := by
  obtain ⟨b, g, v, hg, hv, hr, c, g', hg', hs⟩ := run_getStudents_iff.mp hr
  obtain ⟨n, hg₂⟩ := h.obj hg
  have hput := h.put hg hg₂ (.group { g with students := [] })
  rcases hr with ⟨vs, rfl, hr⟩ | ⟨hno, rfl⟩
  · obtain ⟨w₂', hr₂, h'⟩ := hput.loadStudents (Quiet.sound (L := never) (quiet_assignStudents hg _) hw) hr
    obtain ⟨m, hg₂'⟩ := h'.obj hg'
    exact ⟨w₂', run_getStudents_iff.mpr ⟨_, g, _, hg₂, hv, .inl ⟨vs, rfl, hr₂⟩, _, g', hg₂', hs⟩, h'⟩
  · obtain ⟨m, hg₂'⟩ := hput.obj hg'
    exact ⟨_, run_getStudents_iff.mpr ⟨_, g, v, hg₂, hv, .inr ⟨hno, rfl⟩, _, g', hg₂', hs⟩, hput⟩

/-- The same documents are built. -/
theorem toDoc (h : Recounted w w₂) {p : ℕ} {d : Doc} (hd : run (toDoc p) w = .ok (d, w)) :
    run (toDoc p) w₂ = .ok (d, w₂) := by
  obtain ⟨⟨⟨c, x⟩, hp, hd⟩, -⟩ := run_toDoc_iff.mp hd
  obtain ⟨n, hp₂⟩ := h.obj hp
  refine run_toDoc_iff.mpr ⟨⟨_, hp₂, ?_⟩, rfl⟩
  cases c with
  | none =>
    exact toDoc_plain_iff.mpr ((toDoc_congr h.ident).mpr (toDoc_plain_iff.mp hd))
  | some b =>
    obtain ⟨d', hd', rfl⟩ := toDoc_db_iff.mp hd
    exact toDoc_db_iff.mpr ⟨d', (toDoc_congr h.ident).mpr hd', rfl⟩

end Recounted

/-! ### Getters called one after the other -/

/-- A member that refers to entities: one reference, or the students of a group. -/
inductive Member where
  | ref (g : Getter)
  | students
  deriving DecidableEq, Repr

/-- What the member holds. -/
abbrev Member.Value : Member → Type
  | .ref _ => Option ℕ
  | .students => List ℕ

def Member.get : (m : Member) → ℕ → Cmd m.Value
  | .ref g => g.call
  | .students => GroupDB.getStudents

def Member.set : (m : Member) → ℕ → m.Value → Cmd Unit
  | .ref g => setRef g.field
  | .students => Group.setStudents

/-- The objects a value designates. -/
def Member.toList : {m : Member} → m.Value → List ℕ
  | .ref _, v => v.toList
  | .students, l => l

/-- What getters answer that are called one after the other. -/
def answers : List (Member × ℕ) → Cmd (List (List ℕ))
  | [] => return []
  | (m, q) :: asks => do
    let v ← m.get q
    return m.toList v :: (← answers asks)

/-- Every later getter has the same answer, and every object describes the same document. -/
structure SameAnswers (w w₂ : World) : Prop where
  answers : ∀ asks r, (∃ w', run (answers asks) w = .ok (r, w')) ↔ ∃ w', run (answers asks) w₂ = .ok (r, w')
  toDoc : ∀ p d, run (toDoc p) w = .ok (d, w) ↔ run (toDoc p) w₂ = .ok (d, w₂)

theorem sound_get {m : Member} {p : ℕ} {v : m.Value} (hw : Sound w) (h : run (m.get p) w = .ok (v, w')) : Sound w' := by
  cases m with
  | ref g => exact (quiet_getter hw h).sound hw
  | students => exact (quiet_getStudents hw h).sound hw

namespace Recounted

theorem member (h : Recounted w w₂) (hw : Sound w) {m : Member} {p : ℕ} {v : m.Value}
    (hr : run (m.get p) w = .ok (v, w')) : ∃ w₂', run (m.get p) w₂ = .ok (v, w₂') ∧ Recounted w' w₂' := by
  cases m with
  | ref g => exact h.getter hw hr
  | students => exact h.getStudents hw hr

theorem asked (h : Recounted w w₂) (hw : Sound w) {asks : List (Member × ℕ)} {r : List (List ℕ)}
    (hr : run (answers asks) w = .ok (r, w')) : ∃ w₂', run (answers asks) w₂ = .ok (r, w₂') ∧ Recounted w' w₂' := by
  induction asks generalizing w w₂ r with
  | nil =>
    obtain ⟨rfl, rfl⟩ := (run_pure_iff _).mp hr
    exact ⟨w₂, rfl, h⟩
  | cons ask asks ih =>
    obtain ⟨m, q⟩ := ask
    simp only [answers, run_bind_iff, run_pure_iff] at hr
    obtain ⟨v, w₁, hv, l, _, hl, rfl, rfl⟩ := hr
    obtain ⟨v₂, hv₂, h₁⟩ := h.member hw hv
    obtain ⟨w₂', hl₂, h'⟩ := ih h₁ (sound_get hw hv) hl
    refine ⟨w₂', ?_, h'⟩
    simp only [answers, run_bind_iff, run_pure_iff]
    exact ⟨v, v₂, hv₂, l, w₂', hl₂, rfl, rfl⟩

theorem sameAnswers (h : Recounted w w₂) (hw : Sound w) : SameAnswers w w₂ where
  answers asks r := by
    constructor <;> rintro ⟨w', hr⟩
    · exact (h.asked hw hr).imp fun _ hr => hr.1
    · exact (h.symm.asked (h.sound hw) hr).imp fun _ hr => hr.1
  toDoc p d := ⟨h.toDoc, h.symm.toDoc⟩

end Recounted

end Cbt
