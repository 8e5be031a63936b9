import Cbt.Caches.Traced

/-! Getters and what they point to. A run whose deletions and destructions leave
no pointer behind keeps the world traced; in a traced world every getter of an
object that exists returns, with the object its stored reference names or with
null when there is none. -/

namespace Cbt

open Lib.Command (run_bind_iff run_pure_iff run_fault_iff run_ofExcept_iff)

variable {w w' : World} {k : Kind} {pend : ℕ → Prop} {twin : Oid → Prop}

namespace Traced

/-! ### Writes -/

theorem stored_ne_none (h : Traced w pend twin) {p : ℕ} {b : IFromDB} {x : Fields} (hp : w.Has p b x) :
    w.stored x.kind b.id ≠ none := by simp [h.doc p b x hp]

/-- A stored id is older than the next one. -/
theorem id_lt (h : Traced w pend twin) {p : ℕ} {b : IFromDB} {x : Fields} (hp : w.heap.get p = some ⟨some b, x⟩) :
    b.id < w.env.nextOid := by
  cases he : b.isExist with
  | true => exact h.formed.older _ _ _ "_id" _ (h.doc p b x ⟨hp, he⟩) (stored_id (h.doc p b x ⟨hp, he⟩))
  | false => exact (h.gone p b x hp he).2

/-- The document of an object that exists is of its class. -/
theorem isOf (h : Traced w pend twin) {p : ℕ} {b : IFromDB} {x : Fields} (hp : w.Has p b x) : b.doc.IsOf x.cls := by
  obtain ⟨hc, hs⟩ := h.kinds p _ hp.1
  exact (h.formed.shape _ _ _ (h.doc p b x hp)).isOf (by simp) (hs rfl) hc ⟨_, h.bare p b x hp⟩

/-- An id under a reference key of what an object writes is that of an object of the member's class. -/
theorem target_of_toDoc (h : Traced w pend twin) {p : ℕ} {c : Option IFromDB} {x : Fields} {d : Doc} {f : RefField} {i : Oid}
    (hp : w.heap.get p = some ⟨c, x⟩) (hd : x.toDoc w.heap = .ok d) (hi : d.get? f.key = some (.oid i)) :
    ∃ q b y, x.ref f = some (.to q) ∧ w.Has q b y ∧ b.id = i ∧ f.admits y = true := by
  obtain ⟨f', q, b, y, hk, hf, hq, he, hid⟩ := oid_of_toDoc hd hi
  obtain rfl := RefField.key_injective hk
  exact ⟨q, b, y, hf, ⟨hq, he⟩, hid, h.admits p _ f q _ hp hf hq⟩

/-- A curator written by a group is a teacher. -/
theorem curator_of_toDoc (h : Traced w pend twin) {p : ℕ} {c : Option IFromDB} {x : Fields} {d d' : Doc} {i : Oid}
    (hp : w.heap.get p = some ⟨c, x⟩) (hd : x.toDoc w.heap = .ok d) (hi : d.get? "Curator" = some (.oid i))
    (hs : w.stored .infos i = some d') : d'.IsOf .teacherInfoDB := by
  obtain ⟨q, b, y, -, hq, rfl, ha⟩ := h.target_of_toDoc (f := .curator) hp hd hi
  have hy : y.cls = .teacherInfoDB := by cases y <;> first | rfl | cases ha
  have hdoc := h.doc q b y hq
  have hk : y.kind = .infos := RefField.kind_of_admits ha
  rw [hk, hs, Option.some.injEq] at hdoc
  rw [hdoc, ← hy]
  exact h.isOf hq

theorem older_of_toDoc (h : Traced w pend twin) {x : Fields} {d : Doc} {key : String} {i : Oid} (hd : x.toDoc w.heap = .ok d)
    (hi : d.get? key = some (.oid i)) : i < w.env.nextOid := by
  obtain ⟨f, q, b, y, -, -, hq, -, rfl⟩ := oid_of_toDoc hd hi
  exact h.id_lt hq

/-- An object writes a document of the shape of its collection. -/
theorem shaped_of_toDoc (h : Traced w pend twin) {p : ℕ} {c : Option IFromDB} {x : Fields} {d : Doc}
    (hp : w.heap.get p = some ⟨c, x⟩) (hd : x.toDoc w.heap = .ok d) (i : Oid) : x.kind.Shaped (("_id", .oid i) :: d) := by
  obtain ⟨ref, members, -, rfl⟩ := toDoc_eq_ok.mp hd
  exact shaped_written (h.kinds p _ hp).1 ref members i

/-- The document of an object is stored under the next id. -/
theorem insert (h : Traced w pend twin) {e : ℕ} {c : Option IFromDB} {x : Fields} {d : Doc} (he : w.heap.get e = some ⟨c, x⟩)
    (hd : x.toDoc w.heap = .ok d) : Traced (w.setEnv (w.env.insert x.kind d)) pend twin := by
  have hst : ∀ k o, (w.setEnv (w.env.insert x.kind d)).stored k o =
      if k = x.kind ∧ o = w.env.nextOid then some (Collection.withId w.env.nextOid d) else w.stored k o :=
    fun k o => stored_post (w := w) (e := e) k o
  have hnext : (w.setEnv (w.env.insert x.kind d)).env.nextOid = w.env.nextOid + 1 := rfl
  have hlt : ∀ {k o d}, w.stored k o = some d → o < w.env.nextOid := fun hs => w.env.fresh _ _ _ hs
  have hkey : ∀ {key i}, Doc.get? (Collection.withId w.env.nextOid d) key = some (.oid i) →
      i = w.env.nextOid ∨ Doc.get? d key = some (.oid i) := by
    intro key i hi
    simp only [Collection.withId, Doc.get?_cons] at hi
    split_ifs at hi with hk
    · left; simpa using hi.symm
    · exact .inr hi
  -- a document stored before is the same, and its references are older than the new document
  have hold : ∀ {k o}, o < w.env.nextOid → (w.setEnv (w.env.insert x.kind d)).stored k o = w.stored k o := by
    intro k o ho
    rw [hst, if_neg]
    rintro ⟨-, rfl⟩
    exact lt_irrefl _ ho
  refine { h with sound := h.sound.setEnv _, formed := ⟨?_, ?_, ?_⟩, typed := ?_, doc := ?_, gone := ?_, lost := ?_ }
  · intro k o d₁ hs
    rw [hst] at hs
    split_ifs at hs with ho
    · obtain ⟨rfl, rfl⟩ := ho
      obtain rfl := Option.some.inj hs
      exact h.shaped_of_toDoc he hd _
    · exact h.formed.shape k o d₁ hs
  · intro k o d₁ key i hs hi
    rw [hst] at hs
    rw [hnext]
    split_ifs at hs with ho
    · obtain rfl := Option.some.inj hs
      rcases hkey hi with rfl | hi
      · exact Nat.lt_succ_self _
      · exact Nat.lt_succ_of_lt (h.older_of_toDoc hd hi)
    · exact Nat.lt_succ_of_lt (h.formed.older k o d₁ key i hs hi)
  · intro o d₁ i d' hs hi hs'
    rw [hst] at hs
    split_ifs at hs with ho
    · obtain rfl := Option.some.inj hs
      have hi : Doc.get? d "Curator" = some (.oid i) := hi
      rw [hold (h.older_of_toDoc hd hi)] at hs'
      exact h.curator_of_toDoc he hd hi hs'
    · rw [hold (h.formed.older _ _ _ _ _ hs hi)] at hs'
      exact h.formed.curator o d₁ i d' hs hi hs'
  · intro o d₁ i d' hs hi hs'
    rw [hst] at hs
    split_ifs at hs with ho
    · obtain rfl := Option.some.inj hs
      have hi : Doc.get? d "AdditionalInfo" = some (.oid i) := hi
      obtain ⟨q, b, y, -, hq, hid, ha⟩ := h.target_of_toDoc (f := .additionalInfo) he hd hi
      exact .inl ⟨q, b, y, hq, RefField.kind_of_admits ha, hid⟩
    · rw [hold (h.formed.older _ _ _ _ _ hs hi)] at hs'
      exact h.typed o d₁ i d' hs hi hs'
  · intro p b y hp
    have hp : w.Has p b y := hp
    rw [hold (h.id_lt hp.1)]
    exact h.doc p b y hp
  · intro p b y hp hb
    obtain ⟨hn, hl⟩ := h.gone p b y hp hb
    rw [hold hl]
    exact ⟨hn, Nat.lt_succ_of_lt hl⟩
  · intro p b y f q hp hf hq i hi
    have hp : w.Has p b y := hp
    have hi : w.docRef p f.key = some i := hi
    have hl : i < w.env.nextOid := by
      rw [docRef_of_get hp.1] at hi
      obtain ⟨v, hv, hvi⟩ := Option.bind_eq_some_iff.mp hi
      exact h.formed.older _ _ _ _ _ (h.doc p b y hp) (by rw [hv, Bson.oid?_eq_some.mp hvi])
    rw [hold hl]
    exact h.lost p b y f q hp hf hq i hi

/-- `Add` stores the document of a plain object and destroys it. -/
theorem post (h : Traced w pend twin) {e : ℕ} {x : Fields} {d : Doc} (he : w.heap.get e = some ⟨none, x⟩)
    (hd : x.toDoc w.heap = .ok d) : Traced (w.post x.kind e d) pend twin :=
  ((h.setChanged (k := x.kind) true).insert (e := e) he hd).freePlain (x := x) he

/-- What is updated exists. -/
theorem has_of_update (h : Traced w pend twin) {el : ℕ} {r : Bool} (hu : run (Controller.update k el) w = .ok (r, w')) :
    ∃ b x, w.Has el b x ∧ x.kind = k := by
  obtain ⟨b, x, d, hd, hel, hk, hs, -⟩ := run_update_iff.mp hu
  cases he : b.isExist with
  | true => exact ⟨b, x, ⟨hel, he⟩, hk⟩
  | false =>
    have hn := (h.gone el b x hel he).1
    rw [hk] at hn
    simp [hn] at hs

section
variable {el : ℕ} {b : IFromDB} {x : Fields} {d' : Doc} {hd : Obj.toDoc w.heap ⟨some b, x⟩ = .ok (("_id", .oid b.id) :: d')}

/-- The values of an object stay when a document is replaced; only the updated one has another document. -/
theorem has_of_refresh (hel : w.heap.get el = some ⟨some b, x⟩) {q : ℕ} {b' : IFromDB} {y : Fields}
    (hq : (w.refresh k el b x _ hd).Has q b' y) : ∃ b₁, w.Has q b₁ y ∧ b₁.id = b'.id ∧ (q ≠ el → b₁ = b') := by
  obtain ⟨hq, he⟩ := hq
  rw [heap_refresh, Lib.Heap.get_set _ hel] at hq
  split_ifs at hq with hqe
  · obtain ⟨rfl, rfl⟩ : b.withDoc _ = b' ∧ x = y := by simpa using hq
    exact ⟨b, ⟨hqe ▸ hel, he⟩, rfl, fun hn => absurd hqe hn⟩
  · exact ⟨b', ⟨hq, he⟩, rfl, fun _ => rfl⟩

theorem get_refresh (hel : w.heap.get el = some ⟨some b, x⟩) {q : ℕ} {b₁ : IFromDB} {y : Fields}
    (hq : w.heap.get q = some ⟨some b₁, y⟩) :
    ∃ b', (w.refresh k el b x _ hd).heap.get q = some ⟨some b', y⟩ ∧ b'.id = b₁.id ∧ b'.isExist = b₁.isExist := by
  rw [heap_refresh, Lib.Heap.get_set _ hel]
  split_ifs with hqe
  · subst hqe
    obtain ⟨rfl, rfl⟩ : b = b₁ ∧ x = y := by simpa [hel] using hq
    exact ⟨_, rfl, rfl, rfl⟩
  · exact ⟨b₁, hq, rfl, rfl⟩

/-- A stored info was there before, and is of the same class. -/
theorem info_of_refresh (h : Traced w pend twin) (hex : w.Has el b x) (hs : (w.stored x.kind b.id).isSome) {i : Oid}
    {d₁ : Doc} (hi : (w.refresh x.kind el b x _ hd).stored .infos i = some d₁) : ∃ d₀, w.stored .infos i = some d₀ ∧
      ∀ c, d₀.IsOf c → c.kind = .infos → c ≠ .additionalInfoDB → d₁.IsOf c := by
  rw [stored_refresh hd hs] at hi
  split_ifs at hi with hk
  · obtain rfl := Option.some.inj hi
    obtain ⟨hk, rfl⟩ := hk
    refine ⟨b.doc, hk ▸ h.doc el b x hex, fun c hc hck hca => ?_⟩
    have hshape := h.formed.shape _ _ _ (h.doc el b x hex)
    rw [← hk] at hshape
    obtain ⟨d₂, hd', he⟩ := toDoc_db_iff.mp hd
    obtain ⟨ref, members, -, rfl⟩ := toDoc_eq_ok.mp hd'
    obtain rfl : d' = _ := by simpa using he
    rw [← hshape.unique (by simp [hk]) hck (h.kinds el _ hex.1).1 hca ⟨_, h.bare el b x hex⟩ hc.fields]
    exact isOf_written x ref members b.id
  · exact ⟨d₁, hi, fun _ hc _ _ => hc⟩

theorem get?_refreshed {key : String} {i : Oid} (hi : Doc.get? (("_id", Bson.oid b.id) :: d') key = some (.oid i)) :
    i = b.id ∨ Doc.get? d' key = some (.oid i) := by
  rw [Doc.get?_cons] at hi
  split_ifs at hi with hk
  · left; simpa using hi.symm
  · exact .inr hi

theorem formed_refresh (h : Traced w pend twin) (hex : w.Has el b x) (hs : (w.stored x.kind b.id).isSome)
    (hd' : x.toDoc w.heap = .ok d') : Formed (w.refresh x.kind el b x _ hd) := by
  refine ⟨?_, ?_, ?_⟩
  · intro k o d₁ hd₁
    rw [stored_refresh hd hs] at hd₁
    split_ifs at hd₁ with hk
    · obtain rfl := Option.some.inj hd₁
      exact hk.1 ▸ h.shaped_of_toDoc hex.1 hd' _
    · exact h.formed.shape k o d₁ hd₁
  · intro k o d₁ key i hd₁ hi
    rw [show (w.refresh x.kind el b x _ hd).env.nextOid = w.env.nextOid from rfl]
    rw [stored_refresh hd hs] at hd₁
    split_ifs at hd₁ with hk
    · obtain rfl := Option.some.inj hd₁
      rcases get?_refreshed hi with rfl | hi
      · exact h.id_lt hex.1
      · exact h.older_of_toDoc hd' hi
    · exact h.formed.older k o d₁ key i hd₁ hi
  · intro o d₁ i d₂ hd₁ hi hd₂
    obtain ⟨d₀, h₀, hc⟩ := h.info_of_refresh hex hs hd₂
    refine hc _ ?_ rfl (by simp)
    rw [stored_refresh hd hs] at hd₁
    split_ifs at hd₁ with hk
    · obtain rfl := Option.some.inj hd₁
      exact h.curator_of_toDoc hex.1 hd' hi h₀
    · exact h.formed.curator o d₁ i d₀ hd₁ hi h₀

theorem typed_refresh (h : Traced w pend twin) (hex : w.Has el b x) (hs : (w.stored x.kind b.id).isSome)
    (hd' : x.toDoc w.heap = .ok d') : Typed (w.refresh x.kind el b x _ hd) := by
  intro o d₁ i d₂ hd₁ hi hd₂
  obtain ⟨d₀, h₀, hc⟩ := h.info_of_refresh hex hs hd₂
  have hleft : (∃ p b x, w.Has p b x ∧ x.kind = .infos ∧ b.id = i) →
      ∃ p b' y, (w.refresh x.kind el b x _ hd).Has p b' y ∧ y.kind = .infos ∧ b'.id = i := by
    rintro ⟨q, b₁, y, ⟨hq, he⟩, hk, rfl⟩
    obtain ⟨b', hq', hid, he'⟩ := get_refresh hex.1 hq
    exact ⟨q, b', y, ⟨hq', he'.trans he⟩, hk, hid⟩
  rw [stored_refresh hd hs] at hd₁
  split_ifs at hd₁ with hk
  · obtain rfl := Option.some.inj hd₁
    obtain ⟨q, b₁, y, -, hq, hid, ha⟩ := h.target_of_toDoc (f := .additionalInfo) hex.1 hd' hi
    exact .inl (hleft ⟨q, b₁, y, hq, RefField.kind_of_admits ha, hid⟩)
  · refine (h.typed o d₁ i d₀ hd₁ hi h₀).imp hleft ?_
    rintro ⟨a, c, ha, hca, hof⟩
    refine ⟨a, c, ha, hca, hc c hof ?_ ?_⟩ <;> revert hca <;> cases a.accountType <;>
      simp [InfosController.classOf] <;> rintro rfl <;> simp [DBClass.kind]

end

theorem update (h : Traced w pend twin) {el : ℕ} {r : Bool} (hu : run (Controller.update k el) w = .ok (r, w'))
    (ht : k = .accounts → ∀ b x, w.Has el b x → ¬ twin b.id) : Traced w' pend twin := by
  obtain ⟨b₀, x₀, hex, -⟩ := h.has_of_update hu
  have hst := steady_update hu
  obtain ⟨b, x, d, hd, hel, rfl, hs, -, rfl⟩ := run_update_iff.mp hu
  obtain ⟨rfl, rfl⟩ : b = b₀ ∧ x = x₀ := by simpa [hel] using hex.1
  obtain ⟨d', hd', rfl⟩ := toDoc_db_iff.mp hd
  have hget : ∀ q, (w.refresh x.kind el b x _ hd).heap.get q =
      if q = el then some ⟨some (b.withDoc (("_id", .oid b.id) :: d')), x⟩ else w.heap.get q :=
    fun q => Lib.Heap.get_set _ hel q
  have hstored : ∀ k' o, (w.refresh x.kind el b x _ hd).stored k' o =
      if k' = x.kind ∧ o = b.id then some (("_id", .oid b.id) :: d') else w.stored k' o := stored_refresh hd hs
  have hnone : ∀ {k' o}, w.stored k' o = none → (w.refresh x.kind el b x _ hd).stored k' o = none := by
    intro k' o ho
    rw [hstored, if_neg, ho]
    rintro ⟨rfl, rfl⟩
    exact h.stored_ne_none hex ho
  -- the updated object, with its new document
  have hself : ∀ {b' y}, (w.refresh x.kind el b x _ hd).Has el b' y → b.withDoc (("_id", .oid b.id) :: d') = b' ∧ x = y := by
    rintro b' y ⟨hq, -⟩
    rw [hget, if_pos rfl] at hq
    simpa using hq
  obtain ⟨hkinds, hgiven, hbelow, hadmits⟩ := h.carried (w.refresh x.kind el b x _ hd)
    (by rw [heap_refresh, Lib.Heap.next_set]) fun {q o'} hq => by
      rw [hget] at hq
      split_ifs at hq with hqe
      · obtain rfl := Option.some.inj hq
        exact ⟨⟨some b, x⟩, hqe ▸ hel, rfl, fun _ => rfl⟩
      · exact ⟨o', hq, rfl, id⟩
  refine ⟨hst.sound h.sound, h.formed_refresh hex hs hd', h.typed_refresh hex hs hd', ?_, ?_, ?_, ?_, ?_, hkinds, hgiven,
    hbelow, ?_, hadmits, ?_⟩
  · intro p q b₁ y₁ b₂ y₂ hp hq hk hid ha
    obtain ⟨b₁', hp', hid₁, -⟩ := has_of_refresh hel hp
    obtain ⟨b₂', hq', hid₂, -⟩ := has_of_refresh hel hq
    exact h.unique p q b₁' y₁ b₂' y₂ hp' hq' hk (by rw [hid₁, hid₂, hid]) (by rwa [hid₁])
  · intro p b' y hp
    obtain ⟨b₁, hp', hid, hne⟩ := has_of_refresh hel hp
    by_cases hpe : p = el
    · subst hpe
      obtain ⟨rfl, rfl⟩ := hself hp
      rw [hstored, if_pos ⟨rfl, rfl⟩]; rfl
    · obtain rfl := hne hpe
      rw [hstored, if_neg]
      · exact h.doc p b₁ y hp'
      · rintro ⟨hk, hid'⟩
        exact hpe (h.unique p el b₁ y b x hp' hex hk hid' fun ha => hid' ▸ ht (hk ▸ ha) b x hex)
  · intro p b' y hp
    obtain ⟨b₁, hp', -⟩ := has_of_refresh hel hp
    exact h.filed p b₁ y hp'
  · intro p b' y hp he
    rw [hget] at hp
    split_ifs at hp with hpe
    · obtain ⟨rfl, rfl⟩ : b.withDoc _ = b' ∧ x = y := by simpa using hp
      have hbe : b.isExist = false := he
      rw [hex.2] at hbe
      cases hbe
    · obtain ⟨hn, hl⟩ := h.gone p b' y hp he
      exact ⟨hnone hn, hl⟩
  · intro p b' y hp
    obtain ⟨b₁, hp', hid, hne⟩ := has_of_refresh hel hp
    by_cases hpe : p = el
    · subst hpe
      obtain ⟨rfl, rfl⟩ := hself hp
      obtain ⟨ref, members, -, rfl⟩ := toDoc_eq_ok.mp hd'
      exact fields_written x ref members b.id
    · obtain rfl := hne hpe
      exact h.bare p b₁ y hp'
  · intro p b' y f q hp hf
    obtain ⟨b₁, hp', -⟩ := has_of_refresh hel hp
    obtain ⟨b₂, z, hq⟩ := h.closed p b₁ y f q hp' hf
    obtain ⟨b₃, hq', -⟩ := get_refresh hel hq
    exact ⟨b₃, z, hq'⟩
  · intro p b' y f q hp hf hq i hi
    obtain ⟨b₁, hp', hid, hne⟩ := has_of_refresh hel hp
    have hdead : ¬ w.Alive q := by
      rintro ⟨b₂, z, hz, he⟩
      obtain ⟨b₃, hq', -, he'⟩ := get_refresh hel hz
      exact hq ⟨b₃, z, hq', he'.trans he⟩
    by_cases hpe : p = el
    · subst hpe
      -- what it writes are the ids of objects that exist
      obtain ⟨rfl, rfl⟩ := hself hp
      rw [docRef_of_get hp.1] at hi
      obtain ⟨v, hv, hvi⟩ := Option.bind_eq_some_iff.mp hi
      rw [Bson.oid?_eq_some.mp hvi] at hv
      have hv' : Doc.get? d' f.key = some (.oid i) := by
        have : Doc.get? (("_id", Bson.oid b.id) :: d') f.key = some (.oid i) := hv
        rwa [Doc.get?_cons, if_neg (by cases f <;> decide)] at this
      obtain ⟨q', b₂, z, hf', hq', -⟩ := h.target_of_toDoc hel hd' hv'
      obtain rfl : q = q' := by simpa [hf] using hf'
      exact absurd hq'.alive hdead
    · obtain rfl := hne hpe
      refine hnone (h.lost p b₁ y f q hp' hf hdead i ?_)
      rw [docRef_of_get hp.1] at hi
      rw [docRef_of_get hp'.1, hi]

/-- A cached id is deleted: no other object that exists points to an object that is destroyed, and those that point
to one that is only flagged name no other stored document. -/
structure Deletable (w : World) (oid : Oid) (p : ℕ) : Prop where
  unshared : w.countOf p = some 1 → ∀ q f, w.Alive q → q ≠ p → w.refOf q f ≠ some (.to p)
  named : ∀ q f i, w.Alive q → w.refOf q f = some (.to p) → w.docRef q f.key = some i → i ≠ oid → w.stored f.kind i = none

theorem deleted (h : Traced w pend twin) {oid : Oid} {p₀ : ℕ} (hd : Deleted w k oid w') (hc : w.cached k oid = some p₀)
    (hg : Deletable w oid p₀) (ht : k = .accounts → ¬ twin oid) : Traced w' pend twin := by
  have hsound := hd.sound h.sound
  have hnext := hd.next
  obtain ⟨p, b, x, db, hv, hp, rfl, hdb⟩ := hd.effect
  obtain rfl : p₀ = p := by simpa [Lib.Conf.victim, hc] using hv
  have hin := Lib.Conf.cached_mem hc
  have hid : b.id = oid := by simpa [Lib.Conf.idOf_of_get hp] using Lib.Conf.cached_idOf hc
  obtain ⟨hb, hk⟩ : b.isExist = true ∧ x.kind = k := by
    obtain ⟨b₁, x₁, h₁, hb₁, hk₁⟩ := h.sound.entry k p₀ hin
    obtain ⟨rfl, rfl⟩ : b = b₁ ∧ x = x₁ := by simpa [hp] using h₁
    exact ⟨hb₁, hk₁⟩
  have hhas : w.Has p₀ b x := ⟨hp, hb⟩
  set w' := ((((w.setChanged k true).dismiss p₀ b x).setCash k ((w.cash k).filter (· ≠ p₀))).setEnv db) with hw'
  have hget : ∀ q, q ≠ p₀ → w'.heap.get q = w.heap.get q := fun q hq => get_dismiss_of_ne _ _ _ _ (by simpa using hp) hq
  have hgetp : ∀ o, w'.heap.get p₀ = some o → w.countOf p₀ ≠ some 1 ∧ o = ⟨some b.flagged, x⟩ := by
    intro o ho
    rw [hw', Lib.Conf.heap_setEnv, Lib.Conf.heap_setCash, Lib.Conf.dismiss] at ho
    split_ifs at ho with hn
    · simp [Lib.Heap.get_free] at ho
    · refine ⟨by rw [countOf_of_get hp]; simpa using hn, ?_⟩
      have hp₁ : (w.setChanged k true).heap.get p₀ = some ⟨some b, x⟩ := hp
      rw [Lib.Conf.get_put hp₁, if_pos rfl] at ho
      exact (Option.some.inj ho).symm
  have hstored : ∀ k' o, w'.stored k' o = if k' = k ∧ o = oid then none else w.stored k' o := hdb
  have hsub : ∀ {k' o d}, w'.stored k' o = some d → w.stored k' o = some d := by
    intro k' o d hs
    rw [hstored] at hs
    split_ifs at hs
    exact hs
  have hnone : ∀ {k' o}, w.stored k' o = none → w'.stored k' o = none := by
    intro k' o hs
    rw [hstored]
    split_ifs
    · rfl
    · exact hs
  have back : ∀ {q b' y}, w'.Has q b' y → q ≠ p₀ ∧ w.Has q b' y := by
    rintro q b' y ⟨hq, he⟩
    have hne : q ≠ p₀ := by
      rintro rfl
      obtain ⟨-, ho⟩ := hgetp _ hq
      simp only [Obj.mk.injEq, Option.some.injEq] at ho
      rw [ho.1] at he
      simp [IFromDB.flagged] at he
    exact ⟨hne, hget q hne ▸ hq, he⟩
  have forth : ∀ {q b' y}, w.Has q b' y → q ≠ p₀ → w'.Has q b' y := fun hq hne => ⟨(hget _ hne).trans hq.1, hq.2⟩
  obtain ⟨hkinds, hgiven, hbelow, hadmits⟩ := h.carried w'
    (by rw [hw', Lib.Conf.heap_setEnv, Lib.Conf.heap_setCash, next_dismiss]; rfl) fun {q o'} hq => by
      by_cases hne : q = p₀
      · subst hne
        obtain ⟨-, rfl⟩ := hgetp _ hq
        exact ⟨_, hp, rfl, fun _ => rfl⟩
      · exact ⟨o', hget q hne ▸ hq, rfl, id⟩
  refine ⟨hsound, ⟨fun k' o d hs => h.formed.shape k' o d (hsub hs), fun k' o d key i hs hi => ?_,
    fun o d i d' hs hi hs' => h.formed.curator o d i d' (hsub hs) hi (hsub hs')⟩, ?_,
    fun q r b₁ x₁ b₂ x₂ hq hr hk => h.unique q r b₁ x₁ b₂ x₂ (back hq).2 (back hr).2 hk, ?_, ?_, ?_,
    fun q b₁ x₁ hq => h.bare q b₁ x₁ (back hq).2, hkinds, hgiven, hbelow, ?_, hadmits, ?_⟩
  · rw [hnext]
    exact h.formed.older k' o d key i (hsub hs) hi
  · intro o d i d' hs hi hs'
    refine (h.typed o d i d' (hsub hs) hi (hsub hs')).imp_left ?_
    rintro ⟨q, b₁, x₁, hq, hk₁, rfl⟩
    refine ⟨q, b₁, x₁, forth hq ?_, hk₁, rfl⟩
    rintro rfl
    obtain ⟨rfl, rfl⟩ : b = b₁ ∧ x = x₁ := by simpa [hp] using hq.1
    rw [hstored, if_pos ⟨hk₁.symm.trans hk, hid⟩] at hs'
    cases hs'
  · intro q b₁ x₁ hq
    obtain ⟨hne, hq⟩ := back hq
    rw [hstored, if_neg]
    · exact h.doc q b₁ x₁ hq
    · rintro ⟨hk₁, hid₁⟩
      exact hne (h.unique q p₀ b₁ x₁ b x hq hhas (hk₁.trans hk.symm) (hid₁.trans hid.symm) fun ha =>
        hid₁ ▸ ht (hk₁ ▸ ha))
  · intro q b₁ x₁ hq
    obtain ⟨hne, hq⟩ := back hq
    refine (h.filed q b₁ x₁ hq).imp_left fun hin => ?_
    rw [hw', Lib.Conf.cash_setEnv, Lib.Conf.cash_setCash]
    split_ifs with hk₁
    · rw [hk₁] at hin
      exact List.mem_filter.mpr ⟨hin, by simpa using hne⟩
    · simpa using hin
  · intro q b₁ x₁ hq he
    rw [hnext]
    by_cases hne : q = p₀
    · subst hne
      obtain ⟨-, ho⟩ := hgetp _ hq
      simp only [Obj.mk.injEq, Option.some.injEq] at ho
      obtain ⟨rfl, rfl⟩ := ho
      exact ⟨by rw [hstored, if_pos ⟨hk, hid⟩], h.id_lt (b := b) hp⟩
    · rw [hget q hne] at hq
      obtain ⟨hn, hl⟩ := h.gone q b₁ x₁ hq he
      exact ⟨hnone hn, hl⟩
  · intro q b₁ x₁ f r hq hf
    obtain ⟨hne, hq'⟩ := back hq
    by_cases hr : r = p₀
    · subst hr
      have hcount : b.ownedCount ≠ 1 := fun hn => hg.unshared (by rw [countOf_of_get hp, hn]) q f hq'.alive hne
        (by rw [refOf_of_get hq'.1]; exact hf)
      refine ⟨b.flagged, x, ?_⟩
      have hp₁ : (w.setChanged k true).heap.get r = some ⟨some b, x⟩ := hp
      rw [hw', Lib.Conf.heap_setEnv, Lib.Conf.heap_setCash, Lib.Conf.dismiss, if_neg hcount, Lib.Conf.get_put hp₁, if_pos rfl]
    · rw [hget r hr]
      exact h.closed q b₁ x₁ f r hq' hf
  · intro q b₁ x₁ f r hq hf hdead i hi
    obtain ⟨hne, hq'⟩ := back hq
    have hi' : w.docRef q f.key = some i := by rwa [docRef_of_get hq.1, ← docRef_of_get hq'.1] at hi
    by_cases hr : r = p₀
    · subst hr
      by_cases hio : i = oid
      · have hkind : f.kind = k := (RefField.kind_of_admits (h.admits q _ f r _ hq'.1 hf hp)).symm.trans hk
        rw [hstored, if_pos ⟨hkind, hio⟩]
      · exact hnone (hg.named q f i hq'.alive (by rw [refOf_of_get hq'.1]; exact hf) hi' hio)
    · refine hnone (h.lost q b₁ x₁ f r hq' hf ?_ i hi')
      rintro ⟨b₂, y, ha⟩
      exact hdead ⟨b₂, y, forth ha hr⟩

/-! ### Members -/

theorem enrolled (h : Traced w pend twin) {this stud : ℕ} (he : Enrolled w this stud w') : Traced w' pend twin := by
  obtain ⟨bs, s, c, g, w₂, w₃, w₄, hs, hg, h₂, h₃, h₄, h₅⟩ := he.steps
  have t₁ := h.assignStudents hg (g.students ++ [stud])
  obtain ⟨b, x, hb, -⟩ := t₁.has_of_update h₂
  have halive : w₂.Alive this := ((steady_update h₂).is this _ _ ⟨b, x, hb.1, hb.2, rfl, rfl⟩).alive
  have t₃ := (t₁.update h₂ (by simp)).setRef h₃ fun q hq _ => .inl (Option.some.inj hq ▸ halive)
  exact (t₃.update h₄ (by simp)).own h₅

theorem expelled (h : Traced w pend twin) {this stud : ℕ} (he : Expelled w this stud w') : Traced w' pend twin := by
  obtain ⟨bs, s, c, g, l₁, p, l₂, w₂, w₃, w₄, hs, hg, -, -, -, h₂, h₃, h₄, h₅⟩ := he.steps
  have t₃ := ((h.assignStudents hg (l₁ ++ l₂)).update h₂ (by simp)).setRef h₃ (by simp)
  exact (t₃.update h₄ (by simp)).own h₅

theorem setStudents (h : Traced w pend twin) {this : ℕ} {l : List ℕ} {u : Unit}
    (hr : run (Group.setStudents this l) w = .ok (u, w')) : Traced w' pend twin := by
  have hown : ∀ {l : List ℕ} {w : World} {u : Unit}, Traced w pend twin → run (ownAll l) w = .ok (u, w') → Traced w' pend twin := by
    intro l
    induction l with
    | nil =>
      intro w u h hr
      obtain ⟨-, rfl⟩ := (run_pure_iff _).mp hr
      exact h
    | cons p l ih =>
      intro w u h hr
      obtain ⟨_, w₁, h₁, h₂⟩ := (run_bind_iff _).mp hr
      exact ih (h.own h₁) h₂
  simp only [Group.setStudents, run_bind_iff] at hr
  obtain ⟨_, _, h₁, _, w₂, h₂, h₃⟩ := hr
  obtain ⟨rfl, -⟩ := run_checkStudents_iff.mp h₁
  obtain ⟨c, g, hg, rfl⟩ := run_assignStudents_iff.mp h₂
  exact hown (h.assignStudents hg l) h₃

/-! ### Look-ups, listings and getters -/

/-- No object that exists has an id that is not cached. -/
theorem id_ne (h : Traced w pend twin) {oid : Oid} (hc : w.cached k oid = none)
    (hpend : ∀ p b x, w.Has p b x → pend p → x.kind = k → b.id ≠ oid) :
    ∀ p b x, w.Has p b x → x.kind = k → b.id ≠ oid := by
  intro p b x hp hk
  rcases h.filed p b x hp with hin | hin
  · rw [hk] at hin
    have := Lib.Conf.cached_eq_none.mp hc p hin
    rw [Lib.Conf.idOf_of_get hp.1] at this
    exact fun he => this (congrArg some he)
  · exact hpend p b x hp hin hk

theorem looked (h : Traced w pend twin) {oid : Oid} {c? : Option DBClass} {r : Option ℕ} (hl : Looked w k oid c? r w')
    (hk : ∀ x : Fields, c? = some x.cls → x.kind = k) (hc : c? ≠ some .additionalInfoDB)
    (hs : k = .schedules → w.stored k oid = none)
    (hpend : ∀ p b x, w.Has p b x → pend p → x.kind = k → b.id ≠ oid) : Traced w' pend twin := by
  cases hl with
  | hit => exact h
  | absent => exact h
  | loaded hn hd hcl ho =>
    obtain ⟨x, i, hx, hi, rfl⟩ := ofDoc_eq_ok.mp ho
    obtain rfl : oid = i := by simpa using (stored_id hd).symm.trans hi
    refine h.load (d := _) hd hx ⟨rfl, rfl⟩ (hk x (by rw [hcl, DBClass.cls_fields hx])) (fun he => hc (he ▸ hcl)) ?_
      fun _ => h.id_ne hn hpend
    rintro rfl
    rw [hs rfl] at hd
    cases hd

theorem collect (h : Traced w (fun _ => False) twin) (hk : k = .accounts ∨ k = .groups) {keep : Doc → Except Fault Bool}
    {counted : Bool} {docs : List Doc} {r : List ℕ} (hd : Listed w k docs)
    (hr : run (Controller.collect k keep counted docs) w = .ok (r, w')) : Traced w' (fun _ => False) twin := by
  induction docs generalizing w r with
  | nil =>
    obtain ⟨-, rfl⟩ := (run_pure_iff _).mp hr
    exact h
  | cons d docs ih =>
    rcases (run_collect_cons_iff (h.sound.live k)).mp hr with
      ⟨-, hr⟩ | ⟨oid, r', -, hi, ⟨p, -, -, hr⟩ | ⟨o, hn, ho, -, hr⟩⟩
    · exact ih h hd.tail hr
    · exact ih h hd.tail hr
    · have hs := hd d (by simp) oid hi
      have hq : Quiet (fun _ _ => True) w (w.load k (o.listed counted)) := quiet_listed (by simp) hs hn ho
      refine ih ?_ (hd.tail.of_stored hq.stored) hr
      obtain ⟨x, i, hx, hi', rfl⟩ := ofDoc_eq_ok.mp ho
      obtain rfl : oid = i := by simpa using hi.symm.trans hi'
      have hload : ∀ n : ℤ, Traced (w.load k ⟨some (IFromDB.own n { doc := d, id := oid }), x⟩) (fun _ => False) twin := by
        intro n
        refine h.load (b := IFromDB.own n { doc := d, id := oid }) hs hx ⟨rfl, rfl⟩
          (Fields.kind_of_dbClass (DBClass.cls_fields hx)) ?_ ?_ fun _ => h.id_ne hn fun _ _ _ _ hf => hf.elim
        · rcases hk with rfl | rfl <;> simp [Kind.dbClass]
        · rcases hk with rfl | rfl <;> simp
      cases counted with
      | false => simpa [Obj.listed, IFromDB.own] using hload 0
      | true => exact hload 1

theorem admits_of_looked {g : Getter} {x : Fields} (hk : x.kind = g.kind) (hw : g.wants x = true) :
    g.field.admits x = true := by
  cases g <;> cases x <;> first
    | rfl
    | (simp only [Fields.kind, Getter.kind, reduceCtorEq] at hk; done)
    | simp only [Getter.wants, Fields.isTeacher, Bool.false_eq_true] at hw

/-- A getter that destroys its target is the only one to point to it. -/
def Releases (w : World) (f : RefField) (this : ℕ) : Prop :=
  ∀ p, w.refOf this f = some (.to p) → ¬ w.Alive p → w.countOf p = some 1 →
    ∀ q f', w.Alive q → q ≠ this ∨ f' ≠ f → w.refOf q f' ≠ some (.to p)

theorem settled (h : Traced w pend twin) {f : RefField} {this p : ℕ} {r : Option ℕ} {o : Obj} (ho : w.heap.get this = some o)
    (hv : o.fields.ref f = some (.to p)) (hs : Settled w f this p r w') (hg : Releases w f this) : Traced w' pend twin := by
  cases hs with
  | held => exact h
  | letGo hp hb hn ho' => exact (h.put hp (by simp) rfl fun _ _ hv => .inl hv).assign ho' (.inl rfl)
  | freed hp hb hn ht ho' =>
    rename_i b x o'
    obtain rfl := Option.some.inj (ho.symm.trans ho')
    have hdead : ¬ w.Alive p := by
      rintro ⟨b', x', hp', hb'⟩
      obtain ⟨rfl, rfl⟩ : b = b' ∧ x = x' := by simpa [hp] using hp'
      rw [hb] at hb'
      cases hb'
    have hget : ∀ q, (w.put this (o.setRef f .null)).heap.get q =
        if q = this then some (o.setRef f .null) else w.heap.get q := Lib.Conf.get_put ho
    rw [put_free_comm ht]
    refine (h.assign ho (.inl rfl)).free ?_ ?_
    · rintro ⟨b', x', hp', hb'⟩
      rw [hget, if_neg ht.symm] at hp'
      exact hdead ⟨b', x', hp', hb'⟩
    · rintro q b' x' f' ⟨hq, hb'⟩ hf'
      rw [hget] at hq
      have hclash := hg p (by rw [refOf_of_get ho, hv]) hdead (by rw [countOf_of_get hp, hn]) q f'
      split_ifs at hq with hqt
      · subst hqt
        have hq := Option.some.inj hq
        have hof : o = ⟨some b', o.fields⟩ := by
          have : o.fromDB = some b' := congrArg Obj.fromDB hq
          rw [← this]
        have hx : x' = o.fields.setRef f .null := (congrArg Obj.fields hq).symm
        by_cases hff : f' = f
        · subst hff
          rw [hx, Fields.ref_setRef hv] at hf'
          simp at hf'
        · refine hclash ⟨b', o.fields, hof ▸ ho, hb'⟩ (.inr hff) ?_
          rw [refOf_of_get ho, ← Fields.ref_setRef_of_ne hff, ← hx, hf']
      · exact hclash ⟨b', x', hq, hb'⟩ (.inl hqt) (by rw [refOf_of_get hq]; exact hf')

theorem gotBy (h : Traced w pend twin) {g : Getter} {this : ℕ} {r : Option ℕ} (hg : GotBy w g this r w')
    (hr : Releases w g.field this)
    (hpend : ∀ p b x, w.Has p b x → pend p → x.kind ≠ g.kind) : Traced w' pend twin := by
  have hk : ∀ x : Fields, g.classOf w this = some x.cls → x.kind = g.kind := fun x hx => Getter.kind_of_classOf hx
  have hs : ∀ oid, g.kind = .schedules → w.stored g.kind oid = none := fun _ he => by cases g <;> cases he
  have hp : ∀ oid p b x, w.Has p b x → pend p → x.kind = g.kind → b.id ≠ oid :=
    fun _ p b x hp hpe hk => absurd hk (hpend p b x hp hpe)
  cases hg with
  | settled ho hv hs => exact h.settled ho hv hs hr
  | absent => exact h
  | missed ho hn hv hl _ => exact h.looked hl hk (Getter.classOf_ne g w this) (hs _) (hp _)
  | loaded ho hn hv hl hp' hc h₁ =>
    rename_i b x oid p o₁ o₂ w₁
    have t₁ := h.looked hl hk (Getter.classOf_ne g w this) (hs _) (hp _)
    obtain ⟨b₂, x₂, hg₂, hb₂, hk₂⟩ := t₁.sound.entry _ _ hl.mem
    obtain rfl := Option.some.inj (hp'.symm.trans hg₂)
    exact t₁.assign h₁ (.inr ⟨p, b₂, x₂, rfl, hg₂, admits_of_looked hk₂ hc, fun _ => .inl ⟨b₂, x₂, hg₂, hb₂⟩⟩)

theorem getStudents (h : Traced w (fun _ => False) twin) {this : ℕ} {r : List ℕ}
    (hr : run (GroupDB.getStudents this) w = .ok (r, w')) : Traced w' (fun _ => False) twin := by
  have main : ∀ {vs : List Element} {w : World} {u : Unit}, Traced w (fun _ => False) twin →
      run (GroupDB.loadStudents this vs) w = .ok (u, w') → Traced w' (fun _ => False) twin := by
    intro vs
    induction vs with
    | nil =>
      intro w u h hr
      obtain ⟨-, rfl⟩ := (run_pure_iff _).mp hr
      exact h
    | cons v vs ih =>
      intro w u h hr
      obtain ⟨oid, r, w₁, rfl, h₁, hr⟩ := run_loadStudents_cons_iff.mp hr
      have t₁ : Traced w₁ (fun _ => False) twin := h.looked ((run_infosGetFromDB_iff (h.sound.live .infos)).mp h₁)
        (fun x hx => Fields.kind_of_classOf hx) (by simp [InfosController.classOf]) (by simp) fun _ _ _ _ hf => hf.elim
      rcases hr with ⟨-, hr⟩ | ⟨p, b, x, -, -, -, ⟨-, hr⟩ | ⟨-, c, g, hg, hr⟩⟩
      · exact ih t₁ hr
      · exact ih t₁ hr
      · exact ih (t₁.assignStudents hg _) hr
  obtain ⟨b, g, v, hg, hv, hr, -⟩ := run_getStudents_iff.mp hr
  rcases hr with ⟨vs, -, hr⟩ | ⟨-, rfl⟩
  · exact main (h.assignStudents hg []) hr
  · exact h.assignStudents hg []

/-! ### Adding an info -/

theorem releases_of_null {f : RefField} {this : ℕ} (hn : w.refOf this f = some .null) : Releases w f this := by
  intro p hp
  rw [hn] at hp
  cases hp

theorem attached {acc res : ℕ} (h : Traced w (fun p => p = res) twin) (ha : Attached w acc res w') {o : Oid} {c : DBClass}
    (hr : w.Is res o c) (hk : c.kind = .infos) (hn : res ∉ w.cash .infos) {i : Oid} {c' : DBClass} (hacc : w.Is acc i c')
    (hi : ¬ twin i) : Traced w' (fun _ => False) twin := by
  obtain ⟨w₁, w₂, h₁, h₂, h₃⟩ := ha.steps
  have s₁ := (quiet_setRef h.sound h₁).steady
  have s₂ := s₁.trans (steady_update h₂)
  have hone : ∀ b x, w₁.Has acc b x → ¬ twin b.id := by
    intro b x hb
    have hid := (s₁.is acc i c' hacc).idOf
    rw [Lib.Conf.idOf_of_get hb.1, Option.some.injEq] at hid
    rwa [hid]
  have t₂ := (h.setRef h₁ fun q hq _ => .inl (Option.some.inj hq ▸ hr.alive)).update h₂ fun _ => hone
  obtain ⟨b, x, hg, hb, -, rfl⟩ := s₂.is res o c hr
  have t₃ : Traced w₂ (fun p => False ∨ p = res) twin := t₂.waive fun p b x _ hp => .inr (.inr hp)
  exact (t₃.cache (k := .infos) ⟨hg, hb⟩ (by simpa using hk) (by rw [s₂.cash]; exact hn)).own h₃

theorem grouped {temp : ℕ} (h : Traced w (fun p => p = temp) twin) (hg : Grouped w temp w') {o : Oid} {c : DBClass}
    (ht : w.Is temp o c) (hk : c.kind = .infos) (hn : w.refOf temp .group = some .null) : Traced w' (fun p => p = temp) twin := by
  have hpend : ∀ p b x, w.Has p b x → p = temp → x.kind ≠ .groups := by
    rintro p b x hp rfl hx
    obtain ⟨b', x', hg, -, -, rfl⟩ := ht
    obtain ⟨rfl, rfl⟩ : b = b' ∧ x = x' := by simpa [hg] using hp.1.symm
    rw [Fields.kind_cls] at hk
    rw [hk] at hx
    cases hx
  have first : ∀ {r w₁}, run (StudentInfoDB.getGroup temp) w = .ok (r, w₁) → Traced w₁ (fun p => p = temp) twin :=
    fun h₁ => h.gotBy (run_getter (g := .getStudentGroup) h.sound h₁) (releases_of_null hn) hpend
  cases hg with
  | none h₁ => exact first h₁
  | some h₁ h₂ he =>
    rename_i q g w₁ w₂
    have t₁ := first h₁
    obtain ⟨hmem, href⟩ := (run_getter (g := .getStudentGroup) h.sound h₁).mem_of_null hn
    obtain ⟨-, rfl⟩ := (run_getter (g := .getStudentGroup) t₁.sound h₂).of_to href (t₁.sound.live _ q hmem)
    exact t₁.enrolled he

/-- The account a new info is attached to is the one its form was given. -/
theorem owner_of_gotBy (h : Traced w pend twin) {e this acc : ℕ} {x : Fields} {d d' : Doc} {c : DBClass} {o : Obj}
    {g : Getter} {v w₁ : World} (he : w.heap.get e = some ⟨none, x⟩) (hd : x.toDoc w.heap = .ok d)
    (hown : ∀ q i, w.refOf e .owner = some (.to q) → w.idOf q = some i → ¬ twin i)
    (hs : (w.post .infos e d).stored .infos w.env.nextOid = some d') (ho : c.ofDoc d' = .ok o) (hv : Sound v)
    (h₁ : Sound w₁) (ht : v.heap.get this = some o) (got : GotBy v g this (some acc) w₁)
    (hg : g.key = RefField.owner.key) (hn : v.refOf this g.field = some .null) : ∃ i c', w₁.Is acc i c' ∧ ¬ twin i := by
  rw [stored_post_new, Option.some.injEq] at hs
  subst hs
  obtain ⟨b, y, i, hb, hi, hc⟩ := got.cached_of_null hv hn
  obtain ⟨b₁, x₁, hacc, hb₁, -⟩ := h₁.entry _ _ (Lib.Conf.cached_mem hc)
  obtain ⟨z, j, -, -, rfl⟩ := ofDoc_eq_ok.mp ho
  obtain ⟨rfl, -⟩ : _ = b ∧ z = y := by simpa using ht.symm.trans hb
  have hdoc : Doc.get? d RefField.owner.key = some (.oid i) := by
    rwa [hg, Collection.withId, Doc.get?_cons, if_neg (by decide)] at hi
  obtain ⟨q, b₂, x₂, hq, hhas, rfl, -⟩ := h.target_of_toDoc he hd hdoc
  have hid : b₁.id = b₂.id := by simpa [Lib.Conf.idOf_of_get hacc] using Lib.Conf.cached_idOf hc
  exact ⟨b₂.id, x₁.cls, ⟨b₁, x₁, hacc, hb₁, hid, rfl⟩,
    hown q _ (by rw [refOf_of_get he, hq]) (Lib.Conf.idOf_of_get hhas.1)⟩

theorem infoAdded (h : Traced w (fun _ => False) twin) {e : ℕ} {x : Fields} {d : Doc} {t : AccountType} {r : Option ℕ}
    (he : w.heap.get e = some ⟨none, x⟩) (hx : x.kind = .infos) (hd : x.toDoc w.heap = .ok d)
    (hown : ∀ q i, w.refOf e .owner = some (.to q) → w.idOf q = some i → ¬ twin i)
    (ha : InfoAdded (w.post .infos e d) w.env.nextOid t r w') : Traced w' (fun _ => False) twin := by
  have t₀ : Traced (w.post .infos e d) (fun _ => False) twin := hx ▸ h.post he hd
  have hfresh : ∀ p b y, (w.post .infos e d).Has p b y → b.id ≠ w.env.nextOid := by
    rintro p b y ⟨hp, -⟩
    rw [heap_post, Lib.Heap.get_free] at hp
    split_ifs at hp
    exact (h.id_lt hp).ne
  have hpush : ∀ {c : DBClass} {d' : Doc} {o : Obj}, (w.post .infos e d).stored .infos w.env.nextOid = some d' →
      c.ofDoc d' = .ok o → c.kind = .infos → c ≠ .additionalInfoDB →
      Traced ((w.post .infos e d).push o) (fun p => p = (w.post .infos e d).heap.next) twin := by
    intro c d' o hs ho hk hc
    obtain ⟨y, i, hy, hi, rfl⟩ := ofDoc_eq_ok.mp ho
    obtain rfl : w.env.nextOid = i := by simpa using (stored_id hs).symm.trans hi
    have hcls := DBClass.cls_fields hy
    have hky : y.kind = .infos := by rw [← Fields.kind_cls, hcls, hk]
    refine (t₀.push (o := ⟨some { doc := d', id := w.env.nextOid }, y⟩) (DBClass.bare_fields hy) (hcls ▸ hc) ?_).waive
      fun p b z _ hp => .inr (hp.resolve_left id)
    rintro b hb
    obtain rfl := Option.some.inj hb
    exact ⟨rfl, by simp [hky], hky ▸ hs, hcls ▸ hy, fun _ p b' z hp _ => hfresh p b' z hp⟩
  have hnext : ∀ {w₁ : World} {o : Obj}, Pending ((w.post .infos e d).push o) w₁ →
      (w.post .infos e d).heap.next ∉ w₁.cash .infos := by
    intro w₁ o hp
    rw [hp.cash]
    exact fun hin => (t₀.sound.lt_next hin).ne rfl
  have hkind : ∀ {c : DBClass} {d' : Doc} {o : Obj}, c.ofDoc d' = .ok o → c.kind = .infos → ∀ p b y,
      ((w.post .infos e d).push o).Has p b y → p = (w.post .infos e d).heap.next → y.kind ≠ .accounts := by
    rintro c d' o ho hk p b y ⟨hp, -⟩ rfl
    obtain ⟨z, i, hz, -, rfl⟩ := ofDoc_eq_ok.mp ho
    rw [Lib.Conf.heap_push, Lib.Heap.get_push_next, Option.some.injEq] at hp
    obtain rfl : z = y := congrArg Obj.fields hp
    rw [← Fields.kind_cls, DBClass.cls_fields hz, hk]
    simp
  cases ha with
  | admin => exact t₀
  | student hs ho hgo hgr ha =>
    rename_i d' o acc w₁ w₂
    have t₁ := hpush hs ho rfl (by simp)
    have got := run_getter (g := .getStudentOwner) t₁.sound hgo
    have q₁ := (quiet_getOwner (g := .getStudentOwner) rfl t₁.sound hgo).pending (by simp)
    have t₂ := t₁.gotBy got (releases_of_null (refOf_ofDoc ho (.inr rfl))) (hkind ho rfl)
    obtain ⟨i, c, hacc, hi⟩ := h.owner_of_gotBy he hd hown hs ho t₁.sound t₂.sound (Lib.Heap.get_push_next _ _) got rfl
      (refOf_ofDoc ho (.inr rfl))
    have hnew := q₁.is _ _ _ (push_is hs ho)
    have hn : w₁.refOf (w.post .infos e d).heap.next .group = some .null := by
      rw [got.refOf (push_is hs ho).alive (.inr (by simp [Getter.field]))]
      exact refOf_ofDoc ho (.inl rfl)
    have q₂ := hgr.pending t₂.sound
    exact (t₂.grouped hgr hnew rfl hn).attached ha (q₂.is _ _ _ hnew) rfl (hnext (q₁.trans q₂)) (q₂.is _ _ _ hacc) hi
  | teacher hs ho hgo ha =>
    rename_i d' o acc w₁
    have t₁ := hpush hs ho rfl (by simp)
    have got := run_getter (g := .getTeacherOwner) t₁.sound hgo
    have q₁ := (quiet_getOwner (g := .getTeacherOwner) rfl t₁.sound hgo).pending (by simp)
    have t₂ := t₁.gotBy got (releases_of_null (refOf_ofDoc_teacher ho)) (hkind ho rfl)
    obtain ⟨i, c, hacc, hi⟩ := h.owner_of_gotBy he hd hown hs ho t₁.sound t₂.sound (Lib.Heap.get_push_next _ _) got rfl
      (refOf_ofDoc_teacher ho)
    exact t₂.attached ha (q₁.is _ _ _ (push_is hs ho)) rfl (hnext q₁) hacc hi

/-- Where an account has one object only, the next write may be to it. -/
theorem untwinned (h : Traced w pend twin) : Traced w pend fun i => ¬ w.Untwinned i :=
  { h with
    unique := fun p q b x b' x' hp hq hk hid ht => by
      by_cases ha : x.kind = .accounts
      · exact not_not.mp (ht ha) p q b x b' x' hp hq ha (hk ▸ ha) rfl hid.symm
      · exact h.unique p q b x b' x' hp hq hk hid fun ha' => absurd ha' ha }

theorem any (h : Traced w pend twin) : Traced w pend fun _ => True :=
  { h with unique := fun p q b x b' x' hp hq hk hid ht => h.unique p q b x b' x' hp hq hk hid fun ha => (ht ha trivial).elim }

end Traced

/-! ### Every run -/

/-- The states in which an action leaves no pointer behind: no object is built for a schedule, a listing of the infos
makes no object, an account that is written or deleted has one object, a deleted id is cached and a destroyed object
has no other one pointing to it, and an object that no longer exists is not put in the place of a stored reference. -/
def Action.traces (a : Action) (w : World) : Prop :=
  match a with
  | .getFromDB k oid _ => k = .schedules → w.stored k oid = none
  | .getAll k => w.isChanged k = true → ∀ o d, w.stored k o = some d → Controller.admits k d = .ok true →
      k ≠ .schedules ∧ (k = .infos → w.cached k o ≠ none)
  | .getAllSchedulesinDate date group => ∀ g, w.idOf group = some g →
      (w.env.coll .schedules).docs.filter (Doc.fits [("Date", .int32 date), ("Group", .oid g)]) = []
  | .add k e _ => k ≠ .schedules ∧ ∀ q i, w.refOf e .owner = some (.to q) → w.idOf q = some i → w.Untwinned i
  | .delete k oid => (∃ p, w.cached k oid = some p ∧ Traced.Deletable w oid p) ∧ (k = .accounts → w.Untwinned oid)
  | .update k el => k = .accounts → ∀ i, w.idOf el = some i → w.Untwinned i
  | .setRef f this v => ∀ q, v = some q → w.Alive this → w.Alive q ∨ w.Unnamed this f
  | .get g this => Traced.Releases w g.field this
  | _ => True

theorem New.bare_fields (x : New) : x.fields.bare = x.fields := by cases x <;> rfl

theorem New.cls_ne (x : New) : x.fields.cls ≠ .additionalInfoDB := by cases x <;> simp [New.fields, Fields.cls]

theorem traced_step {a : Action} (h : Traced w (fun _ => False) fun _ => True) (hs : a.Step w w') (hg : a.traces w) :
    Traced w' (fun _ => False) fun _ => True := by
  have hw := h.sound
  unfold Action.Step at hs
  cases a <;> simp only [Action.cmd, run_bind_iff, run_pure_iff] at hs
  case getFromDB k oid t =>
    obtain ⟨_, _, hs, -, rfl⟩ := hs
    unfold getFromDB at hs
    split_ifs at hs with hk
    · subst hk
      refine h.looked ((run_infosGetFromDB_iff (hw.live _)).mp hs) (fun x hx => Fields.kind_of_classOf hx) ?_ hg
        fun _ _ _ _ hf => hf.elim
      cases t <;> simp [InfosController.classOf]
    · refine h.looked ((run_getFromDB_iff (hw.live _)).mp hs)
        (fun x hx => Fields.kind_of_dbClass (Option.some.inj hx).symm) ?_ hg fun _ _ _ _ hf => hf.elim
      cases k <;> simp [Kind.dbClass] at hk ⊢
  case getAll k =>
    obtain ⟨_, _, hs, -, rfl⟩ := hs
    rcases run_getAll_iff.mp hs with ⟨-, -, rfl⟩ | ⟨hc, w₁, h₁, rfl⟩
    · exact h
    · refine Traced.setChanged ?_ false
      by_cases hk : k = .accounts ∨ k = .groups
      · exact h.collect hk (fun d hd o ho => Collection.get?_of_mem hd ho) h₁
      · have hdocs : ∀ d ∈ (w.env.coll k).docs, ∀ o, Controller.admits k d = .ok true →
            d.get? "_id" = some (.oid o) → w.cached k o ≠ none := by
          intro d hd o ha ho
          obtain ⟨hns, hin⟩ := hg hc o d (Collection.get?_of_mem hd ho) ha
          cases k with
          | accounts => exact absurd (.inl rfl) hk
          | groups => exact absurd (.inr rfl) hk
          | infos => exact hin rfl
          | schedules => exact absurd rfl hns
        rw [collect_of_cached (hw.live k) hdocs h₁]
        exact h
  case getAllTeachers =>
    obtain ⟨_, _, hs, -, rfl⟩ := hs
    simp only [AccountsController.getAllTeachers, run_bind_iff, run_find_iff] at hs
    obtain ⟨_, _, ⟨rfl, rfl⟩, hs⟩ := hs
    exact h.collect (.inl rfl) (listed_filter w _ _) hs
  case getAllSchedulesinDate date group =>
    obtain ⟨_, _, hs, -, rfl⟩ := hs
    simp only [ScheduleController.getAllSchedulesinDate, run_bind_iff, run_deref_iff, run_fromDB_iff,
      run_find_iff] at hs
    obtain ⟨_, _, ⟨hgr, rfl⟩, b, _, ⟨hb, rfl⟩, _, _, ⟨rfl, rfl⟩, hs⟩ := hs
    obtain ⟨x, hx⟩ := header_eq_ok.mp hb
    obtain rfl : group = _ := by simpa using hgr
    rw [hg b.id (Lib.Conf.idOf_of_get hx)] at hs
    obtain ⟨-, rfl⟩ := (run_pure_iff _).mp hs
    exact h
  case findFullAccount l =>
    obtain ⟨_, _, hs, -, rfl⟩ := hs
    obtain ⟨d, o, hd, ho, -, rfl⟩ := run_findFullAccount_iff.mp hs
    obtain ⟨x, i, hx, hi, rfl⟩ := ofDoc_eq_ok.mp ho
    exact h.load (b := { doc := d, id := i }) (account?_stored hd hi) hx ⟨rfl, rfl⟩
      (Fields.kind_of_dbClass (k := .accounts) (DBClass.cls_fields hx)) (by simp) (by simp) fun ht => (ht rfl trivial).elim
  case new x =>
    obtain ⟨_, _, hs, -, rfl⟩ := hs
    obtain ⟨-, rfl⟩ := run_newObj_iff.mp hs
    refine (h.push (o := ⟨none, x.fields⟩) x.bare_fields x.cls_ne (by simp)).waive ?_
    rintro p b y ⟨hp, -⟩ (hf | rfl)
    · exact hf.elim
    · simp at hp
  case add k e t =>
    obtain ⟨_, _, hs, -, rfl⟩ := hs
    unfold add at hs
    split_ifs at hs with hk
    · subst hk
      obtain ⟨x, d, he, hx, hd, -, ha⟩ := run_infosAdd hs
      exact (h.untwinned.infoAdded he hx hd (fun q i hq hi => not_not.mpr (hg.2 q i hq hi)) ha).any
    · obtain ⟨x, d, o, he, rfl, hd, -, ho, -, rfl⟩ := run_add_iff.mp hs
      obtain ⟨y, i, hy, hi, rfl⟩ := ofDoc_eq_ok.mp ho
      obtain rfl : w.env.nextOid = i := by simpa [Collection.withId] using hi
      refine (h.post he hd).load (c := x.kind.dbClass)
        (b := IFromDB.own 1 { doc := Collection.withId w.env.nextOid d, id := w.env.nextOid })
        stored_post_new hy ⟨rfl, rfl⟩ (Fields.kind_of_dbClass (DBClass.cls_fields hy)) ?_ hg.1 fun _ => ?_
      · cases x <;> simp [Fields.kind, Kind.dbClass] at hk ⊢
      · rintro p b' x' ⟨hp, -⟩ -
        rw [heap_post, Lib.Heap.get_free] at hp
        split_ifs at hp
        exact (h.id_lt hp).ne
  case delete k oid =>
    obtain ⟨_, _, hs, -, rfl⟩ := hs
    obtain ⟨⟨p, hc, hdel⟩, htwin⟩ := hg
    exact (h.untwinned.deleted (run_delete hw hs) hc hdel fun hk => not_not.mpr (htwin hk)).any
  case update =>
    obtain ⟨_, _, hs, -, rfl⟩ := hs
    exact (h.untwinned.update hs fun hk b x hb => not_not.mpr (hg hk b.id (Lib.Conf.idOf_of_get hb.1))).any
  case setRef => exact h.setRef hs hg
  case setStudents => exact h.setStudents hs
  case get =>
    obtain ⟨_, _, hs, -, rfl⟩ := hs
    exact h.gotBy (run_getter hw hs) hg fun _ _ _ _ hf => hf.elim
  case getStudents => obtain ⟨_, _, hs, -, rfl⟩ := hs; exact h.getStudents hs
  case addStudent => obtain ⟨_, _, hs, -, rfl⟩ := hs; exact h.enrolled (run_addStudent_iff.mp hs).2
  case deleteStudent =>
    obtain ⟨_, _, hs, -, rfl⟩ := hs
    rcases run_deleteStudent hs with ⟨-, he⟩ | ⟨-, rfl⟩
    · exact h.expelled he
    · exact h

/-- A database whose documents are as the program writes them: of the shape of their collections, with references to
older documents only, of a teacher as the curator and of an info of the account's type. -/
structure Database.Formed (db : Database) : Prop where
  docs : Cbt.Formed (World.start db)
  types : ∀ o d i d', db.get? .accounts o = some d → d.get? "AdditionalInfo" = some (.oid i) →
    db.get? .infos i = some d' → ∃ a c, DBClass.accountDB.fields d = .ok (.account a) ∧
      InfosController.classOf a.accountType = some c ∧ d'.IsOf c

theorem traced_start {db : Database} (hdb : db.Formed) : Traced (World.start db) (fun _ => False) fun _ => True := by
  have hnone : ∀ p, (World.start db).heap.get p = none := fun p => by simp [World.start, Process.init, Lib.Conf.heap]
  have hno : ∀ p b x, ¬ (World.start db).Has p b x := fun p b x hp => by cases (hnone p).symm.trans hp.1
  refine ⟨sound_start db, hdb.docs, fun o d i d' hd hi hd' => .inr (hdb.types o d i d' hd hi hd'), ?_, ?_, ?_, ?_, ?_, ?_,
    ?_, ?_, ?_, ?_, ?_⟩
  · exact fun p q b x b' x' hp => absurd hp (hno p b x)
  · exact fun p b x hp => absurd hp (hno p b x)
  · exact fun p b x hp => absurd hp (hno p b x)
  · exact fun p b x hp => by simp [hnone] at hp
  · exact fun p b x hp => absurd hp (hno p b x)
  · exact fun p o hp => by simp [hnone] at hp
  · exact fun p o f hp => by simp [hnone] at hp
  · exact fun p o f q hp => by simp [hnone] at hp
  · exact fun p b x f q hp => absurd hp (hno p b x)
  · exact fun p o f q o' hp => by simp [hnone] at hp
  · exact fun p b x f q hp => absurd hp (hno p b x)

/-- Every run from such a database whose actions leave no pointer behind ends in a traced world. -/
theorem traced_of_run {db : Database} {as : List Action} (hdb : db.Formed)
    (hr : Lib.Run Action.Step Action.traces (World.start db) as w) :
    Traced w (fun _ => False) fun _ => True :=
  hr.invariant (I := fun w => Traced w (fun _ => False) fun _ => True) (traced_start hdb) fun a _ _ ht hg hs =>
    traced_step (a := a) ht hs hg

end Cbt
