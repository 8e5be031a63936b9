import Cbt.Effects.Answering
import Cbt.Lib.Total
import Cbt.Windows.Acts

/-! A process that has only read. Every object in its memory exists and holds the stored
document of its id, with the values of that document, and a pointer that is not null
designates the object of the id the document names. So what such a process is answered
depends on the documents alone. -/

namespace Cbt

open Lib.Command (Returns run_bind_iff run_pure_iff)

variable {db : Database} {w w' : World} {k : Kind} {c : DBClass} {d : Doc} {p this : ℕ} {g : Getter} {r : Option ℕ}

/-- An object exists, is of a class and holds a document. -/
def Lib.Conf.Holds (w : World) (p : ℕ) (c : DBClass) (d : Doc) : Prop :=
  ∃ b x, w.heap.get p = some ⟨some b, x⟩ ∧ b.isExist = true ∧ x.cls = c ∧ b.doc = d

/-- An object of a controller that holds a document. -/
def Lib.Conf.Shows (w : World) (k : Kind) (p : ℕ) (d : Doc) : Prop := ∃ c, c.kind = k ∧ w.Holds p c d

theorem Lib.Conf.Holds.mono (h : w.Holds p c d) (hl : Looks w w') : w'.Holds p c d := by
  obtain ⟨b, x, hp, hb, rfl, rfl⟩ := h
  obtain ⟨b', x', hp', hc, hx⟩ := hl.kept hp hb
  simp only [IFromDB.core, Prod.mk.injEq] at hc
  exact ⟨b', x', hp', hc.2.2.trans hb, Fields.cls_of_bare hx, hc.2.1⟩

theorem Lib.Conf.Shows.mono (h : w.Shows k p d) (hl : Looks w w') : w'.Shows k p d :=
  h.imp fun _ hp => ⟨hp.1, hp.2.mono hl⟩

/-- Every object holds what is stored, and points only to what its document names. -/
structure Reader (db : Database) (w : World) : Prop where
  env : w.env = db
  sound : Sound w
  object : ∀ p o, w.heap.get p = some o → ∃ b, o.fromDB = some b ∧ b.isExist = true ∧ db.get? o.fields.kind b.id = some b.doc ∧
    o.fields.cls ≠ .additionalInfoDB ∧ o.fields.cls.fields b.doc = .ok o.fields.bare
  given : ∀ p o f, w.heap.get p = some o → o.fields.ref f = some .uninit → o.fields.cls = .scheduleDB
  leads : ∀ p b x f q, w.heap.get p = some ⟨some b, x⟩ → x.ref f = some (.to q) →
    ∃ i b' y, b.doc.get? f.key = some (.oid i) ∧ w.heap.get q = some ⟨some b', y⟩ ∧ b'.id = i ∧ y.kind = f.kind

theorem reader_start (db : Database) : Reader db (World.start db) where
  env := rfl
  sound := sound_start db
  object p o h := by simp [World.start, Process.init, Lib.Conf.heap] at h
  given p o f h := by simp [World.start, Process.init, Lib.Conf.heap] at h
  leads p b x f q h := by simp [World.start, Process.init, Lib.Conf.heap] at h

/-- The document a reference of a document leads to. -/
def Database.follow (db : Database) (d : Doc) (f : RefField) : Option Doc :=
  ((d.get? f.key).bind Bson.oid?).bind (db.get? f.kind)

/-- From a process that has only read, the command returns to one that has only read. -/
abbrev Replies (db : Database) {α : Type} (m : Cmd α) (w : World) (post : α → World → Prop) : Prop :=
  Returns Database.serve m w fun a w' => Reader db w' ∧ Looks w w' ∧ post a w'

namespace Replies

variable {α β : Type} {m : Cmd α} {f : α → Cmd β} {post mid : α → World → Prop} {after : β → World → Prop}

theorem pure {a : α} (h : Reader db w) (hp : post a w) : Replies db (Pure.pure a : Cmd α) w post :=
  Returns.pure ⟨h, .refl, hp⟩

/-- A command that changes nothing, and what comes after it. -/
theorem seq {a : α} (hr : run m w = .ok (a, w)) (hf : Replies db (f a) w after) : Replies db (m >>= f) w after := by
  obtain ⟨b, w', h, hp⟩ := hf
  exact .of_run ((run_bind_iff _).mpr ⟨a, w, hr, h⟩) hp

theorem bind (hm : Replies db m w mid)
    (hf : ∀ a w₁, Reader db w₁ → Looks w w₁ → mid a w₁ → Replies db (f a) w₁ after) : Replies db (m >>= f) w after := by
  refine Returns.bind hm fun a w₁ h => (hf a w₁ h.1 h.2.1 h.2.2).mono fun b w₂ h' => ?_
  exact ⟨h'.1, h.2.1.trans h'.2.1, h'.2.2⟩

theorem mono (hm : Replies db m w mid) (hp : ∀ a w', Reader db w' → Looks w w' → mid a w' → post a w') : Replies db m w post :=
  Returns.mono hm fun a w' h => ⟨h.1, h.2.1, hp a w' h.1 h.2.1 h.2.2⟩

end Replies

namespace Reader

theorem stored (h : Reader db w) (k : Kind) : w.stored k = db.get? k := by
  funext i
  rw [← h.env]
  rfl

/-- An object exists and shows the values of its document, which is stored. -/
theorem known (h : Reader db w) {b : IFromDB} {x : Fields} (hp : w.heap.get p = some ⟨some b, x⟩) :
    b.isExist = true ∧ db.get? x.kind b.id = some b.doc ∧ x.cls ≠ .additionalInfoDB ∧ x.cls.fields b.doc = .ok x.bare := by
  obtain ⟨b', hb, hx⟩ := h.object p _ hp
  exact Option.some.inj hb ▸ hx

theorem fields (h : Reader db w) (hp : w.Holds p c d) : ∃ x, c.fields d = .ok x := by
  obtain ⟨b, x, hp, -, rfl, rfl⟩ := hp
  exact ⟨_, (h.known hp).2.2.2⟩

/-- A cached object holds the stored document of its id. -/
theorem holds_cached (h : Reader db w) (hp : p ∈ w.cash k) :
    ∃ i c d, w.idOf p = some i ∧ c.kind = k ∧ db.get? k i = some d ∧ w.Holds p c d := by
  obtain ⟨b, x, hg, hb, rfl⟩ := h.sound.entry k p hp
  exact ⟨b.id, x.cls, b.doc, Lib.Conf.idOf_of_get hg, Fields.kind_cls x, (h.known hg).2.1, b, x, hg, hb, rfl, rfl⟩

/-! ### What keeps a process reading -/

theorem setChanged (h : Reader db w) (b : Bool) : Reader db (w.setChanged k b) :=
  ⟨h.env, h.sound.setChanged b, h.object, h.given, h.leads⟩

theorem load (h : Reader db w) {b : IFromDB} {x : Fields} (hs : db.get? x.kind b.id = some b.doc) (hb : b.isExist = true)
    (hc : x.cls ≠ .additionalInfoDB) (hx : x.cls.fields b.doc = .ok x) : Reader db (w.load x.kind ⟨some b, x⟩) := by
  have hget : ∀ q, (w.load x.kind ⟨some b, x⟩).heap.get q = if q = w.heap.next then some ⟨some b, x⟩ else w.heap.get q :=
    fun q => Lib.Heap.get_push _ _ _
  refine ⟨h.env, h.sound.load hb rfl, fun q o hq => ?_, fun q o f hq hf => ?_, fun q b₁ y f t hq hf => ?_⟩
  · rw [hget] at hq
    split_ifs at hq with hn
    · obtain rfl := Option.some.inj hq
      exact ⟨b, rfl, hb, hs, hc, by rw [DBClass.bare_fields hx]; exact hx⟩
    · exact h.object q o hq
  · rw [hget] at hq
    split_ifs at hq with hn
    · obtain rfl := Option.some.inj hq
      rcases ref_of_bare (DBClass.bare_fields hx) hf with hv | ⟨-, hk⟩
      · cases hv
      · cases x <;> first | rfl | cases hk
    · exact h.given q o f hq hf
  · rw [hget] at hq
    split_ifs at hq with hn
    · obtain ⟨rfl, rfl⟩ : b = b₁ ∧ x = y := by simpa using hq
      rcases ref_of_bare (DBClass.bare_fields hx) hf with hv | ⟨hv, -⟩ <;> cases hv
    · obtain ⟨i, b', y', hi, ht, hid, hk⟩ := h.leads q b₁ y f t hq hf
      exact ⟨i, b', y', hi, Lib.Heap.get_push_of_some _ ht, hid, hk⟩

/-- What a look-up yields is the object of the document with the id; without one there is no such document, or none
that it can make an object of. -/
theorem looked (h : Reader db w) {oid : Oid} {c? : Option DBClass} (hl : Looked w k oid c? r w')
    (hc : ∀ c, c? = some c → c ≠ .additionalInfoDB ∧ c.kind = k) :
    Reader db w' ∧ (r = none → db.get? k oid = none ∨ c? = none) ∧
      ∀ p, r = some p → ∃ b x, w'.heap.get p = some ⟨some b, x⟩ ∧ b.id = oid ∧ x.kind = k := by
  cases hl with
  | hit hp =>
    refine ⟨h, fun hn => (by cases hn), fun p hr => ?_⟩
    obtain rfl := Option.some.inj hr
    obtain ⟨b, x, hg, -, hk⟩ := h.sound.entry k _ (Lib.Conf.cached_mem hp)
    have hid : b.id = oid := by simpa [Lib.Conf.idOf_of_get hg] using Lib.Conf.cached_idOf hp
    exact ⟨b, x, hg, hid, hk⟩
  | absent hn hs =>
    refine ⟨h, fun _ => ?_, fun p hr => (by cases hr)⟩
    rwa [h.stored] at hs
  | loaded hn hs hcl ho =>
    obtain ⟨x, hx, rfl⟩ := ofDoc_stored hs ho
    obtain ⟨hne, hk⟩ := hc _ hcl
    subst hx
    rw [Fields.kind_cls] at hk
    subst hk
    rw [h.stored] at hs
    have hf := fields_of_ofDoc ho
    refine ⟨h.load (b := IFromDB.own 1 { doc := _, id := oid }) hs rfl hne hf, fun hn => (by cases hn), fun p hr => ?_⟩
    obtain rfl := Option.some.inj hr
    exact ⟨_, x, Lib.Heap.get_push_next _ _, rfl, rfl⟩

/-- A member is given the object of the id under its key. -/
theorem assign (h : Reader db w) {b b' : IFromDB} {x y : Fields} {f : RefField} {v : Pointer} {q : ℕ}
    (hp : w.heap.get p = some ⟨some b, x⟩) (hv : x.ref f = some v) (hi : b.doc.get? f.key = some (.oid b'.id))
    (hq : w.heap.get q = some ⟨some b', y⟩) (hk : y.kind = f.kind) :
    Reader db (w.put p ((⟨some b, x⟩ : Obj).setRef f (.to q))) := by
  have hget : ∀ t, (w.put p ((⟨some b, x⟩ : Obj).setRef f (.to q))).heap.get t =
      if t = p then some ⟨some b, x.setRef f (.to q)⟩ else w.heap.get t := Lib.Conf.get_put hp
  have hquiet : Quiet never w (w.put p ((⟨some b, x⟩ : Obj).setRef f (.to q))) := .single (.put hp (.setRef _ _ _))
  have forth : ∀ t b₁ z, w.heap.get t = some ⟨some b₁, z⟩ →
      ∃ z', (w.put p ((⟨some b, x⟩ : Obj).setRef f (.to q))).heap.get t = some ⟨some b₁, z'⟩ ∧ z'.kind = z.kind := by
    intro t b₁ z ht
    rw [hget]
    split_ifs with he
    · subst he
      obtain ⟨rfl, rfl⟩ : b = b₁ ∧ x = z := by simpa [hp] using ht
      exact ⟨_, rfl, Fields.kind_of_cls (Fields.cls_setRef _ _ _)⟩
    · exact ⟨z, ht, rfl⟩
  refine ⟨h.env, hquiet.sound h.sound, fun t o ht => ?_, fun t o f' ht hf => ?_, fun t b₁ z f' q' ht hf => ?_⟩
  · rw [hget] at ht
    split_ifs at ht with he
    · obtain rfl := Option.some.inj ht
      obtain ⟨b₁, hb, hex, hs, hc, hx⟩ := h.object p _ hp
      rw [Fields.cls_setRef, Fields.bare_setRef, Fields.kind_of_cls (Fields.cls_setRef x f (.to q))]
      exact ⟨b₁, hb, hex, hs, hc, hx⟩
    · exact h.object t o ht
  · rw [hget] at ht
    split_ifs at ht with he
    · obtain rfl := Option.some.inj ht
      rw [Fields.cls_setRef]
      refine h.given p _ f' hp ?_
      by_cases hff : f' = f
      · subst hff
        rw [Fields.ref_setRef hv] at hf
        cases hf
      · rwa [Fields.ref_setRef_of_ne hff] at hf
    · exact h.given t o f' ht hf
  · have old : ∀ z, w.heap.get t = some ⟨some b₁, z⟩ → z.ref f' = some (.to q') →
        ∃ i b₂ y', b₁.doc.get? f'.key = some (.oid i) ∧
          (w.put p ((⟨some b, x⟩ : Obj).setRef f (.to q))).heap.get q' = some ⟨some b₂, y'⟩ ∧ b₂.id = i ∧ y'.kind = f'.kind := by
      intro z hz hfz
      obtain ⟨i, b₂, y₂, hd, hq₂, hid, hk₂⟩ := h.leads t b₁ z f' q' hz hfz
      obtain ⟨y', hy', hk'⟩ := forth q' b₂ y₂ hq₂
      exact ⟨i, b₂, y', hd, hy', hid, hk'.trans hk₂⟩
    rw [hget] at ht
    split_ifs at ht with he
    · subst he
      obtain ⟨rfl, rfl⟩ : b = b₁ ∧ x.setRef f (.to q) = z := by simpa using ht
      by_cases hff : f' = f
      · subst hff
        rw [Fields.ref_setRef hv, Option.some.injEq, Pointer.to.injEq] at hf
        subst hf
        obtain ⟨y', hy', hk'⟩ := forth q b' y hq
        exact ⟨b'.id, b', y', hi, hy', rfl, hk'.trans hk⟩
      · exact old x hp (by rwa [Fields.ref_setRef_of_ne hff] at hf)
    · exact old z ht hf

/-! ### Getters -/

/-- A pointer that is not null designates the object of the document that is named. -/
theorem target (h : Reader db w) {o : Obj} {q : ℕ} {f : RefField} (ho : w.heap.get p = some o)
    (hv : o.fields.ref f = some (.to q)) :
    ∃ b d', o.fromDB = some b ∧ db.follow b.doc f = some d' ∧ w.Shows f.kind q d' := by
  obtain ⟨b, hb, -⟩ := h.object p o ho
  obtain ⟨i, b', y, hi, hq, rfl, hk⟩ := h.leads p b o.fields f q (by rw [← hb]; exact ho) hv
  obtain ⟨hex, hs, -⟩ := h.known hq
  refine ⟨b, b'.doc, hb, ?_, y.cls, by rw [Fields.kind_cls, hk], b', y, hq, hex, rfl, rfl⟩
  rw [Database.follow, hi, ← hk]
  exact hs

theorem classes (g : Getter) (w : World) (this : ℕ) (c : DBClass) (hc : g.classOf w this = some c) :
    c ≠ .additionalInfoDB ∧ c.kind = g.kind :=
  ⟨fun he => g.classOf_ne w this (he ▸ hc), Getter.kind_classOf hc⟩

theorem got (h : Reader db w) (hgt : g ≠ .getTeacher) (hg : GotBy w g this r w') : Reader db w' := by
  cases hg with
  | settled ho hv hs =>
    obtain ⟨-, -, -, -, -, -, b, x, hq, hb, -⟩ := h.target ho hv
    obtain ⟨-, rfl⟩ := hs.of_alive ⟨b, x, hq, hb⟩
    exact h
  | absent => exact h
  | missed ho hn hv hl hr => exact (h.looked hl (classes g w this)).1
  | loaded ho hn hv hl hp hc h₁ =>
    obtain ⟨hr, -, hs⟩ := h.looked hl (classes g w this)
    obtain ⟨b', y, hq, rfl, hk⟩ := hs _ rfl
    obtain rfl := Option.some.inj ((hl.get ho).symm.trans h₁)
    exact hr.assign h₁ hn (by rw [Getter.field_key hgt]; exact hv) hq (hk.trans g.field_kind.symm)

/-- A getter that takes what it finds answers with the object of the document its reference leads to. -/
theorem got_follow (h : Reader db w) (hgt : g ≠ .getTeacher) (hgw : ∀ x, g.wants x = true) (ht : w.Holds this c d)
    (hg : GotBy w g this r w') :
    g.classOf w this = none ∧ r = none ∨ Option.Rel (w'.Shows g.kind) r (db.follow d g.field) := by
  have follow {b : IFromDB} {x : Fields} {v : Bson} (ho : w.heap.get this = some ⟨some b, x⟩) (hv : b.doc.get? g.key = some v) :
      db.follow d g.field = v.oid?.bind (db.get? g.kind) := by
    obtain ⟨b₁, x₁, ho₁, -, -, rfl⟩ := ht
    obtain ⟨rfl, rfl⟩ : b = b₁ ∧ x = x₁ := by simpa [ho] using ho₁
    rw [Database.follow, Getter.field_key hgt, hv, g.field_kind]
    rfl
  cases hg with
  | settled ho hv hs =>
    obtain ⟨b, d', hb, hf, hsh⟩ := h.target ho hv
    obtain ⟨b₁, x₁, ho₁, -, -, rfl⟩ := ht
    obtain rfl := Option.some.inj (ho.symm.trans ho₁)
    obtain rfl := Option.some.inj hb
    obtain ⟨-, -, b, x, hq, hb, -⟩ := id hsh
    obtain ⟨rfl, rfl⟩ := hs.of_alive ⟨b, x, hq, hb⟩
    rw [hf, ← g.field_kind]
    exact .inr (.some hsh)
  | absent ho hn hv hi =>
    rw [follow ho hv, hi]
    exact .inr .none
  | @missed b x oid r₀ _ ho hn hv hl hr =>
    obtain ⟨-, hnone, -⟩ := h.looked hl (classes g w this)
    have hr₀ : r₀ = none := by
      cases r₀ with
      | none => rfl
      | some q =>
        obtain ⟨o, -, hw⟩ := hr q rfl
        rw [hgw] at hw
        cases hw
    rcases hnone hr₀ with hs | hc
    · rw [follow ho hv]
      exact .inr (by rw [Bson.oid?_oid, Option.bind_some, hs]; exact .none)
    · exact .inl ⟨hc, rfl⟩
  | loaded ho hn hv hl hp hc h₁ =>
    obtain ⟨hr, -, hs⟩ := h.looked hl (classes g w this)
    obtain ⟨b', y, hq, rfl, hk⟩ := hs _ rfl
    obtain ⟨hex, hst, -⟩ := hr.known hq
    have hsh : Lib.Conf.Shows _ g.kind _ b'.doc := ⟨y.cls, by rw [Fields.kind_cls, hk], b', y, hq, hex, rfl, rfl⟩
    rw [follow ho hv, Bson.oid?_oid, Option.bind_some, ← hk]
    rw [hst]
    refine .inr (.some ?_)
    rw [hk]
    exact hsh.mono (.of_quiet (L := never) (.single (.put h₁ (.setRef _ _ _))))

/-- A getter that takes what it finds returns, if it can make an object of the document its reference leads to. -/
theorem replies_get (h : Reader db w) (hgt : g ≠ .getTeacher) (hgw : ∀ x, g.wants x = true) (ht : w.Holds this c d)
    (hc : c ≠ .scheduleDB) (hf : g.field ∈ c.refs) (hkey : ∃ v, d.get? g.key = some v)
    (hload : ∀ c' d', g.classOf w this = some c' → db.follow d g.field = some d' → ∃ x, c'.fields d' = .ok x) :
    Replies db (g.call this) w fun r w' =>
      g.classOf w this = none ∧ r = none ∨ Option.Rel (w'.Shows g.kind) r (db.follow d g.field) := by
  obtain ⟨b, x, ho, hb, rfl, rfl⟩ := id ht
  have hgot : ∃ r w', GotBy w g this r w' := by
    obtain ⟨v, hv⟩ := Fields.mem_refs.mp hf
    cases v with
    | uninit => exact absurd (h.given this _ g.field ho hv) hc
    | «to» q =>
      obtain ⟨-, -, -, -, -, -, b', y, hq, hb', -⟩ := h.target ho hv
      exact ⟨_, _, .settled ho hv (.held hq hb')⟩
    | null =>
      obtain ⟨v, hkv⟩ := hkey
      cases hoid : v.oid? with
      | none => exact ⟨_, _, .absent ho hv hkv hoid⟩
      | some oid =>
        obtain rfl := Bson.oid?_eq_some.mp hoid
        cases hc : w.cached g.kind oid with
        | some q =>
          obtain ⟨b', y, hq, -⟩ := h.sound.entry _ _ (Lib.Conf.cached_mem hc)
          exact ⟨_, _, .loaded ho hv hkv (.hit hc) hq (hgw _) ho⟩
        | none =>
          cases hs : w.stored g.kind oid with
          | none => exact ⟨_, _, .missed ho hv hkv (.absent hc (.inl hs)) (by simp)⟩
          | some d' =>
            cases hcl : g.classOf w this with
            | none => exact ⟨_, _, .missed ho hv hkv (.absent hc (.inr hcl)) (by simp)⟩
            | some c' =>
              have hfol : db.follow b.doc g.field = some d' := by
                rw [Database.follow, Getter.field_key hgt, hkv, g.field_kind, ← h.stored]
                exact hs
              obtain ⟨y, hy⟩ := hload c' d' hcl hfol
              have hof := ofDoc_eq_ok.mpr ⟨y, oid, hy, stored_id hs, rfl⟩
              exact ⟨_, _, .loaded ho hv hkv (.loaded hc hs hcl hof) (Lib.Heap.get_push_next _ _) (hgw _)
                (Lib.Heap.get_push_of_some _ ho)⟩
  obtain ⟨r, w', hgot⟩ := hgot
  have hrun := (run_getter_iff h.sound ho hf).mpr hgot
  exact ⟨r, w', hrun, h.got hgt hgot, .of_quiet (quiet_getter h.sound hrun), h.got_follow hgt hgw ht hgot⟩

end Reader

end Cbt
