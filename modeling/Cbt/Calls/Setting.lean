import Cbt.Calls.Recounting
import Cbt.Calls.Students

/-! Setting a member and getting it. A getter asks the document its object remembers
whenever the pointer is null, and `getStudents` always does, so what was set is
what is got exactly when the document has no say in it: a reference that is not
null is got back, a null one only if the document names nothing that is found,
and students only if they are the ones the document lists. `Update` makes the
document say what was set. -/

namespace Cbt

open Lib.Command (run_bind_iff run_pure_iff)

variable {w w₁ w₂ w' : World} {p : ℕ} {b : IFromDB} {x : Fields}

/-- The key of a member in the document of its entity. -/
def Member.key : Member → String
  | .ref g => g.key
  | .students => "Members"

/-- The classes that have a member. -/
def Member.Of : Member → Fields → Prop
  | .ref g, x => g.field ∈ x.cls.refs
  | .students, x => x.cls = .groupDB

/-- The classes a member designates objects of. -/
def Member.admits : Member → Fields → Bool
  | .ref g, x => g.field.admits x
  | .students, x => x.isStudent

/-- An entity that was loaded has the member: its document has a value for it. -/
structure Member.On (m : Member) (w : World) (p : ℕ) (b : IFromDB) (x : Fields) : Prop where
  get : w.heap.get p = some ⟨some b, x⟩
  exist : b.isExist = true
  of : m.Of x
  value : ∃ v, b.doc.get? m.key = some v

/-- A value that may be set: it designates objects that exist, of the member's class. -/
def Member.Live (m : Member) (w : World) (v : m.Value) : Prop :=
  ∀ q ∈ m.toList v, ∃ c y, w.heap.get q = some ⟨some c, y⟩ ∧ c.isExist = true ∧ m.admits y = true

/-- A document names an entity that a getter finds: its object is cached, or its document is stored and can be loaded. -/
def Getter.Names (g : Getter) (w : World) (p : ℕ) (d : Doc) : Prop :=
  ∃ i, d.get? g.key = some (.oid i) ∧ match w.cached g.kind i with
    | some q => ∃ o, w.heap.get q = some o ∧ g.wants o.fields = true
    | none => w.stored g.kind i ≠ none ∧ g.classOf w p ≠ none

/-- Whatever is set in the member, the document of the entity can be built: no other pointer is uninitialised or to an object
that was freed. -/
structure Member.Spares (m : Member) (h : Memory) (x : Fields) : Prop where
  ref : ∀ f v, (∀ g, m = .ref g → f ≠ g.field) → x.ref f = some v → v = .null ∨ ∃ p b, v = .to p ∧ header h p = .ok b
  students : m ≠ .students → ∀ g, x = .group g → ∀ p ∈ g.students, ∃ b, header h p = .ok b

/-- What was set is got. Without an update: a reference that is not null, a null one where the document names nothing, or the
students the document lists. With an update, if the entity is still stored and its document can be built: every reference, and
students that are found under their ids. -/
def Member.Kept (w : World) (p : ℕ) (b : IFromDB) (x : Fields) : Bool → (m : Member) → m.Value → Prop
  | false, .ref g, v => v ≠ none ∨ ¬ g.Names w p b.doc
  | false, .students, l => b.doc.Lists w l
  | true, m, v => (w.stored x.kind b.id).isSome ∧ m.Spares w.heap x ∧
    (m = .students → ∀ q ∈ m.toList v, ∃ i, w.idOf q = some i ∧ w.cached .infos i = some q)

/-- A setter, perhaps an update, and the getter return, and the getter answers with what was set. -/
def Member.SetGot (m : Member) (p : ℕ) (v : m.Value) (k : Kind) (updated : Bool) (w : World) : Prop :=
  ∃ w₁ w₂ w₃, run (m.set p v) w = .ok ((), w₁) ∧
    (if updated then ∃ r, run (Controller.update k p) w₁ = .ok (r, w₂) else w₂ = w₁) ∧ run (m.get p) w₂ = .ok (v, w₃)

/-- What a getter needs to return; `getStudents`, that the document lists ids whose records can be loaded. -/
def Member.Answerable (w : World) (p : ℕ) (b : IFromDB) (x : Fields) : Member → Prop
  | .ref g => ∃ v, x.ref g.field = some v ∧ g.Answerable w p b.doc v
  | .students => ∀ vs, b.doc.get? "Members" = some (.array vs) →
    ∃ ids : List Oid, vs = ids.map .oid ∧ ∀ i ∈ ids, w.Loadable .infos (some .studentInfoDB) i

/-! ### One reference -/

theorem run_getter_of_to {g : Getter} {c : Option IFromDB} {q : ℕ} (hw : Sound w) (hp : w.heap.get p = some ⟨c, x⟩)
    (hv : x.ref g.field = some (.to q)) (hq : w.Alive q) : run (g.call p) w = .ok (some q, w) := by
  obtain ⟨c', y, hg, hb⟩ := hq
  exact (run_getter_iff hw hp (Fields.mem_refs.mpr ⟨_, hv⟩)).mpr (.settled hp hv (.held hg hb))

/-- What a getter loads, it takes. -/
theorem wants_loaded {g : Getter} {c : DBClass} {d : Doc} {o : Obj} (hc : g.classOf w p = some c) (ho : c.ofDoc d = .ok o)
    (n : ℤ) : g.wants (o.own n).fields = true := by
  obtain ⟨y, j, hy, -, rfl⟩ := ofDoc_eq_ok.mp ho
  exact Getter.wants_of_cls (w := w) (p := p) (by rw [Obj.own_fields, DBClass.cls_fields hy, hc])

/-- A getter whose pointer is null finds nothing exactly when the document names nothing. -/
theorem get_none_iff {g : Getter} (hw : Sound w) (hp : w.heap.get p = some ⟨some b, x⟩)
    (hn : x.ref g.field = some .null) (hv : ∃ v, b.doc.get? g.key = some v) :
    (∃ w', run (g.call p) w = .ok (none, w')) ↔ ¬ g.Names w p b.doc := by
  simp only [run_getter_iff hw hp (Fields.mem_refs.mpr ⟨_, hn⟩)]
  constructor
  · rintro ⟨w', h⟩ ⟨i, hi, hfound⟩
    cases h with
    | settled ho hv' =>
      obtain rfl := Option.some.inj (hp.symm.trans ho)
      simp [hn] at hv'
    | absent ho _ hv' hoid =>
      obtain ⟨rfl, rfl⟩ : b = _ ∧ x = _ := by simpa [hp] using ho
      rw [hi, Option.some.injEq] at hv'
      subst hv'
      simp at hoid
    | missed ho _ hv' hl hr =>
      obtain ⟨rfl, rfl⟩ : b = _ ∧ x = _ := by simpa [hp] using ho
      obtain rfl : i = _ := by simpa [hi] using hv'
      cases hl with
      | hit hc =>
        simp only [hc] at hfound
        obtain ⟨o, ho, hwants⟩ := hfound
        obtain ⟨o', ho', hno⟩ := hr _ rfl
        obtain rfl := Option.some.inj (ho.symm.trans ho')
        simp [hwants] at hno
      | absent hc hs =>
        simp only [hc] at hfound
        rcases hs with hs | hs
        · exact hfound.1 hs
        · exact hfound.2 hs
      | loaded hc hs hcl ho =>
        obtain ⟨o, ho', hno⟩ := hr _ rfl
        obtain rfl := Option.some.inj ((Lib.Heap.get_push_next _ _).symm.trans ho')
        rw [wants_loaded hcl ho] at hno
        cases hno
  · intro hno
    obtain ⟨v, hv⟩ := hv
    cases hoid : v.oid? with
    | none => exact ⟨w, .absent hp hn hv hoid⟩
    | some i =>
      obtain rfl := Bson.oid?_eq_some.mp hoid
      cases hc : w.cached g.kind i with
      | some q =>
        obtain ⟨c, y, hq, -⟩ := hw.entry _ _ (Lib.Conf.cached_mem hc)
        have hwants : g.wants y = false := by
          cases hy : g.wants y with
          | false => rfl
          | true => exact absurd ⟨i, hv, by simpa only [hc] using ⟨_, hq, hy⟩⟩ hno
        refine ⟨w, .missed hp hn hv (.hit hc) fun q' hq' => ?_⟩
        obtain rfl := Option.some.inj hq'
        exact ⟨_, hq, hwants⟩
      | none =>
        refine ⟨w, .missed hp hn hv (.absent hc ?_) (by simp)⟩
        by_contra hs
        simp only [not_or] at hs
        exact hno ⟨i, hv, by simpa only [hc] using hs⟩

/-- What is found does not depend on pointers and counts. -/
theorem names_of_quiet {g : Getter} (hw : Sound w) (hq : Quiet never w w') (hp : w.heap.get p = some ⟨some b, x⟩)
    (hb : b.isExist = true) (d : Doc) : g.Names w' p d ↔ g.Names w p d := by
  obtain ⟨b', x', hp', -, hbare⟩ := hq.kept hp hb
  have hclass : g.classOf w' p = g.classOf w p := by
    cases g with
    | getAdditionalInfo =>
      simp only [Getter.classOf, hp, hp']
      cases x <;> cases x' <;> simp only [Fields.bare, reduceCtorEq, Fields.account.injEq, Account.mk.injEq] at hbare <;>
        first | rfl | simp only [hbare.2.1]
    | _ => rfl
  have hcached : ∀ i, w'.cached g.kind i = w.cached g.kind i :=
    cached_congr hw hq.grows (hq.cash_eq fun _ h => h)
  have hwants : ∀ i q, w.cached g.kind i = some q → ((∃ o, w'.heap.get q = some o ∧ g.wants o.fields = true) ↔
      ∃ o, w.heap.get q = some o ∧ g.wants o.fields = true) := by
    intro i q hc
    obtain ⟨c, y, hg, hcb, -⟩ := hw.entry _ _ (Lib.Conf.cached_mem hc)
    obtain ⟨c', y', hg', -, hy⟩ := hq.same hg hcb
    simp [hg, hg', g.wants_congr hy]
  simp only [Getter.Names, hcached, hclass, hq.stored]
  refine exists_congr fun i => and_congr_right' ?_
  cases hc : w.cached g.kind i with
  | none => rfl
  | some q => exact hwants i q hc

/-! ### Setters -/

/-- The members of an entity after a setter. -/
def Member.assigned : (m : Member) → m.Value → Fields → Fields
  | .ref g, v, x => x.setRef g.field (.ofOption v)
  | .students, l, .group g => .group { g with students := l }
  | .students, _, x => x

theorem Recounted.alive (h : Recounted w w₂) {q : ℕ} (hq : w.Alive q) : w₂.Alive q := by
  obtain ⟨c, y, hg, hb⟩ := hq
  obtain ⟨n, hg₂⟩ := h.obj hg
  exact ⟨c.own n, y, hg₂, hb⟩

theorem run_ownAll {l : List ℕ} (hl : ∀ q ∈ l, w.Alive q) :
    (∃ w', run (ownAll l) w = .ok ((), w')) ∧ ∀ w', run (ownAll l) w = .ok ((), w') → Recounted w w' := by
  induction l generalizing w with
  | nil =>
    refine ⟨⟨w, rfl⟩, fun w' h => ?_⟩
    obtain ⟨-, rfl⟩ := (run_pure_iff _).mp h
    exact .refl w
  | cons q l ih =>
    rw [List.forall_mem_cons] at hl
    have rest : ∀ {w₁ : World} {u : Unit}, run (own q 1) w = .ok (u, w₁) → Recounted w w₁ ∧ ∀ r ∈ l, w₁.Alive r :=
      fun h => ⟨.own hl.1 h, fun r hr => (Recounted.own hl.1 h).alive (hl.2 r hr)⟩
    refine ⟨?_, fun w' h => ?_⟩
    · obtain ⟨c, y, hg, -⟩ := id hl.1
      have h₁ : run (own q 1) w = .ok ((), _) := run_own_iff.mpr ⟨c, y, hg, rfl⟩
      obtain ⟨w', h⟩ := (ih (rest h₁).2).1
      exact ⟨w', (run_bind_iff _).mpr ⟨⟨⟩, _, h₁, h⟩⟩
    · obtain ⟨_, w₁, h₁, h₂⟩ := (run_bind_iff _).mp h
      exact (rest h₁).1.trans ((ih (rest h₁).2).2 w' h₂)

/-- A setter returns; it assigns the member and counts what the member now designates. -/
theorem run_set {m : Member} {v : m.Value} (hp : w.heap.get p = some ⟨some b, x⟩) (hx : m.Of x) (hv : m.Live w v) :
    (∃ w₁, run (m.set p v) w = .ok ((), w₁)) ∧
      ∀ w₁, run (m.set p v) w = .ok ((), w₁) → Recounted (w.put p ⟨some b, m.assigned v x⟩) w₁ := by
  cases m with
  | ref g =>
    obtain ⟨u, hu⟩ := Fields.mem_refs.mp hx
    cases v with
    | none =>
      refine ⟨⟨_, run_setRef_none_iff.mpr ⟨_, u, hp, hu, rfl⟩⟩, fun w₁ h => ?_⟩
      obtain ⟨o, -, ho, -, rfl⟩ := run_setRef_none_iff.mp h
      obtain rfl := Option.some.inj (hp.symm.trans ho)
      exact .refl _
    | some q =>
      obtain ⟨c, y, hq, hc, hadm⟩ := hv q (by simp [Member.toList])
      have hne : q ≠ p := by
        rintro rfl
        obtain ⟨-, rfl⟩ : b = c ∧ x = y := by simpa [hp] using hq
        rw [Member.admits, not_admits_self hx] at hadm
        cases hadm
      have hq' : (w.put p ⟨some b, x.setRef g.field (.to q)⟩).heap.get q = some ⟨some c, y⟩ := by
        rw [Lib.Conf.get_put hp, if_neg hne, hq]
      refine ⟨⟨_, run_setRef_some_iff.mpr ⟨_, u, _, c, y, hp, hu, hq, hadm, hq', rfl⟩⟩, fun w₁ h => ?_⟩
      obtain ⟨o, -, -, c', y', ho, -, -, -, hq₁, rfl⟩ := run_setRef_some_iff.mp h
      obtain rfl := Option.some.inj (hp.symm.trans ho)
      exact .own (u := ()) ⟨c, y, hq', hc⟩ (run_own_iff.mpr ⟨c', y', hq₁, rfl⟩)
  | students =>
    obtain ⟨g, rfl⟩ : ∃ g, x = .group g := by
      cases x <;> first | exact ⟨_, rfl⟩ | cases hx
    have hstud : ∀ q ∈ v, ∃ c s, w.heap.get q = some ⟨some c, .student s⟩ ∧ c.isExist = true := by
      intro q hq
      obtain ⟨c, y, hg, hc, hy⟩ := hv q hq
      cases y <;> first | exact ⟨c, _, hg, hc⟩ | cases hy
    have hlive : ∀ q ∈ v, (w.put p ⟨some b, .group { g with students := v }⟩).Alive q := by
      intro q hq
      obtain ⟨c, s, hg, hc⟩ := hstud q hq
      have hne : q ≠ p := by
        rintro rfl
        simp [hp] at hg
      exact ⟨c, _, by rw [Lib.Conf.get_put hp, if_neg hne, hg], hc⟩
    have hcheck : run (List.forM v checkStudent) w = .ok ((), w) := by
      refine run_checkStudents_iff.mpr ⟨rfl, fun q hq => ?_⟩
      obtain ⟨c, s, hg, -⟩ := hstud q hq
      exact ⟨c, s, hg⟩
    obtain ⟨⟨w₁, h₁⟩, hown⟩ := run_ownAll hlive
    simp only [Member.set, Group.setStudents, run_bind_iff, run_assignStudents_iff]
    refine ⟨⟨w₁, ⟨⟩, w, hcheck, ⟨⟩, _, ⟨_, g, hp, rfl⟩, h₁⟩, ?_⟩
    rintro w₂ ⟨_, _, hc, _, _, ⟨c, g', hg, rfl⟩, h₂⟩
    obtain ⟨rfl, -⟩ := run_checkStudents_iff.mp hc
    obtain ⟨rfl, rfl⟩ : c = some b ∧ g' = g := by simpa [hp] using hg.symm
    exact hown w₂ h₂

/-! ### With an update in between -/

theorem cached_update {k : Kind} {r : Bool} (h : run (Controller.update k p) w = .ok (r, w')) : w'.cached = w.cached := by
  obtain ⟨-, -, -, -, -, -, -, -, hcash, -⟩ := update_effect h
  have hid : w'.idOf = w.idOf := funext fun q => idOf_update h
  funext k' i
  simp only [Lib.Conf.cached, hcash, hid]

/-- The document an update leaves says what was set. -/
theorem get_updated {k : Kind} {r : Bool} {n : ℤ} (hp : w.heap.get p = some ⟨some (b.own n), x⟩)
    (h : run (Controller.update k p) w = .ok (r, w')) : ∃ ref members, x.Writes w.heap ref members ∧
      w'.heap.get p = some ⟨some ((b.own n).withDoc (("_id", .oid b.id) :: x.written ref members)), x⟩ := by
  obtain ⟨c, y, d, hg, -, hd, -, hh, -⟩ := update_effect h
  obtain ⟨rfl, rfl⟩ : b.own n = c ∧ x = y := by simpa [hp] using hg
  obtain ⟨ref, members, hwr, rfl⟩ := toDoc_eq_ok.mp hd
  exact ⟨ref, members, hwr, by rw [hh, Lib.Heap.get_set _ hp, if_pos rfl]; rfl⟩

/-- A reference that was set is got after an update. -/
theorem get_ref_updated {g : Getter} {v : Option ℕ} {k : Kind} {r : Bool} {n : ℤ} (hg : g ≠ .getTeacher) (hw : Sound w)
    (hp : w.heap.get p = some ⟨some (b.own n), x⟩) (hv : x.ref g.field = some (.ofOption v))
    (hlive : ∀ q, v = some q → w.Alive q) (h : run (Controller.update k p) w = .ok (r, w')) :
    ∃ w₃, run (g.call p) w' = .ok (v, w₃) := by
  have hw' := (steady_update h).sound hw
  obtain ⟨ref, members, hwr, hp'⟩ := get_updated hp h
  cases v with
  | some q =>
    obtain ⟨c, y, hq, hc⟩ := hlive q rfl
    exact ⟨w', run_getter_of_to hw' hp' hv ((steady_update h).alive ⟨c, y, hq, hc⟩)⟩
  | none =>
    have hf : g.field ∈ x.cls.refs := Fields.mem_refs.mpr ⟨_, hv⟩
    have hnull : ref g.field = nullValue := (Except.ok.inj (hwr.ref _ _ hv)).symm
    have hdoc : Doc.get? (("_id", .oid b.id) :: x.written ref members) g.key = some nullValue := by
      rw [Doc.get?_cons, if_neg (by cases g <;> decide), ← Getter.field_key hg, get?_written hf, hnull]
    exact ⟨w', (run_getter_iff hw' hp' hf).mpr (.absent hp' hv hdoc rfl)⟩

/-- Students that were set are got after an update exactly when the cache finds them under their ids. -/
theorem get_students_updated {g : Group} {k : Kind} {r : Bool} {n : ℤ} (hw : Sound w)
    (hp : w.heap.get p = some ⟨some (b.own n), .group g⟩)
    (hs : ∀ q ∈ g.students, ∃ c s, w.heap.get q = some ⟨some c, .student s⟩ ∧ c.isExist = true)
    (h : run (Controller.update k p) w = .ok (r, w')) : (∃ w₃, run (GroupDB.getStudents p) w' = .ok (g.students, w₃)) ↔
      ∀ q ∈ g.students, ∃ i, w.idOf q = some i ∧ w.cached .infos i = some q := by
  have hw' := (steady_update h).sound hw
  obtain ⟨ref, members, hwr, hp'⟩ := get_updated hp h
  have hlive : ∀ q ∈ g.students, w.Alive q := by
    intro q hq
    obtain ⟨c, s, hg, hc⟩ := hs q hq
    exact ⟨c, _, hg, hc⟩
  obtain ⟨ids, hids, hmap⟩ := existingIds_of_alive hlive
  obtain ⟨c, y, d, hg, hk, -, -, -, -, -, -, hstored⟩ := update_effect h
  obtain ⟨-, rfl⟩ : b.own n = c ∧ Fields.group g = y := by simpa [hp] using hg
  have hinfos : w'.stored .infos = w.stored .infos := by
    funext i
    rw [hstored, if_neg (by rw [← hk]; simp [Fields.kind])]
  have hdoc : ∀ ids', Doc.MembersAre (("_id", .oid b.id) :: (Fields.group g).written ref members) ids' ↔ ids' = ids := by
    intro ids'
    have hmem := hwr.members g rfl
    have hget : Doc.get? (("_id", .oid b.id) :: (Fields.group g).written ref members) "Members" = some members := by
      simp [Fields.written]
    simp only [Doc.MembersAre, hget, Option.some.injEq, exists_eq_left']
    unfold membersValue at hmem
    split_ifs at hmem with he
    · obtain rfl := Except.ok.inj hmem
      obtain rfl : ids = [] := by simpa [List.isEmpty_iff.mp he] using hmap.symm
      simp [nullValue]
    · rw [hids] at hmem
      obtain rfl := Except.ok.inj hmem
      have hinj : Function.Injective Element.oid := fun _ _ h => Element.oid.inj h
      simp [(List.map_injective_iff.mpr hinj).eq_iff, eq_comm]
  have hs' : ∀ q ∈ g.students, ∃ c s, w'.heap.get q = some ⟨c, .student s⟩ := by
    intro q hq
    obtain ⟨c, s, hg, hc⟩ := hs q hq
    obtain ⟨c', y, hg', -, -, hy⟩ := (steady_update h).is q c.id .studentInfoDB ⟨c, _, hg, hc, rfl, rfl⟩
    cases y <;> first | exact ⟨_, _, hg'⟩ | cases hy
  have hmap' : g.students.map w'.idOf = ids.map some := by
    rw [← hmap]
    exact List.map_congr_left fun q _ => idOf_update h
  have hlt : ∀ q ∈ g.students, q < w'.heap.next := fun q hq => by
    obtain ⟨c, s, hg⟩ := hs' q hq
    exact Lib.Heap.lt_next hg
  have hfound := cachedStudents_eq_iff hmap' hs'
  rw [hinfos] at hfound
  simp only [cached_update h, idOf_update h] at hfound
  rw [lists_iff hw' hp' hlt, hfound]
  simp only [Doc.Lists, IFromDB.withDoc, hdoc, exists_eq_left, hinfos, cached_update h]

/-! ### A getter before its setter -/

theorem Fields.setRef_self {x : Fields} {f : RefField} {v : Pointer} (h : x.ref f = some v) : x.setRef f v = x := by
  cases x <;> cases f <;> simp only [Fields.ref, reduceCtorEq, Option.some.injEq] at h <;> subst h <;> rfl

/-- The value a getter answered with may be set, and then nothing but counts has changed. -/
theorem set_of_get {m : Member} {v : m.Value} {Γ : Classes} (hw : Sound w) (ht : WellTyped Γ w) (hp : m.On w p b x)
    (h : run (m.get p) w = .ok (v, w₁)) :
    (∃ w₂, run (m.set p v) w₁ = .ok ((), w₂)) ∧ ∀ w₂, run (m.set p v) w₁ = .ok ((), w₂) → Recounted w₁ w₂ := by
  cases m with
  | ref g =>
    have hgot := run_getter hw h
    obtain ⟨b₁, x₁, hp₁, -, hbare⟩ := (quiet_getter hw h).kept hp.get hp.exist
    have hof : (Member.ref g).Of x₁ := by
      change g.field ∈ x₁.cls.refs
      rw [Fields.cls_of_bare hbare]
      exact hp.of
    obtain ⟨href, hlive⟩ : x₁.ref g.field = some (.ofOption v) ∧ (Member.ref g).Live w₁ v := by
      cases v with
      | none => exact ⟨(refOf_of_get hp₁ _).symm.trans hgot.ref_none, fun q hq => by cases hq⟩
      | some q =>
        obtain ⟨hq, hr⟩ := hgot.alive hw
        refine ⟨(refOf_of_get hp₁ _).symm.trans hr, fun r hr => ?_⟩
        obtain rfl : r = q := by simpa [Member.toList] using hr
        obtain ⟨c, y, hg, hc⟩ := hq
        refine ⟨c, y, hg, hc, ?_⟩
        cases hgot with
        | settled ho hv hs =>
          cases hs with
          | held =>
            obtain rfl := Option.some.inj (hp.get.symm.trans ho)
            exact ht.admits (ht.ref p _ _ _ ho hv) hg
        | loaded ho hn hv hl hq hwants h₁ =>
          -- what was loaded is cached by the controller the member is about
          have hw₁ := (quiet_getter hw h).sound hw
          obtain ⟨c', y', hg', -, hk⟩ := hw₁.entry g.kind _ hl.mem
          obtain ⟨-, rfl⟩ := Obj.mk.inj (Option.some.inj (hg.symm.trans hg'))
          refine Traced.admits_of_looked hk ?_
          rw [Lib.Conf.get_put h₁] at hg
          split_ifs at hg with hqp
          · subst hqp
            obtain rfl := Option.some.inj (hq.symm.trans h₁)
            obtain rfl := congrArg Obj.fields (Option.some.inj hg)
            rw [Obj.setRef, g.wants_congr (Fields.cls_setRef _ _ _)]
            exact hwants
          · obtain rfl := Option.some.inj (hq.symm.trans hg)
            exact hwants
    obtain ⟨hex, hset⟩ := run_set hp₁ hof hlive
    refine ⟨hex, fun w₂ h₂ => ?_⟩
    have := hset w₂ h₂
    rwa [Member.assigned, Fields.setRef_self href, put_self hp₁] at this
  | students =>
    obtain ⟨g, rfl⟩ : ∃ g, x = .group g := by
      have hx := hp.of
      cases x <;> first | exact ⟨_, rfl⟩ | cases hx
    obtain ⟨ids, hgot⟩ := got_students hw hp.get h
    have hlive : Member.Live .students w₁ v := by
      intro q hq
      obtain ⟨i, -, -, c, s, hg, hc, -⟩ := hgot.cached hq
      exact ⟨c, _, hg, hc, rfl⟩
    obtain ⟨hex, hset⟩ := run_set hgot.get (m := .students) rfl hlive
    refine ⟨hex, fun w₂ h₂ => ?_⟩
    have := hset w₂ h₂
    rwa [Member.assigned, put_self hgot.get] at this

end Cbt
