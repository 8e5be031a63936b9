import Cbt.Effects.Extension
import Cbt.Windows.Entries

/-! What the tables of accounts can read. A memory and its documents are legible when
each account that is listed has an info that can be asked for, and so has each student
among these a group: the pointer designates an object that was not freed, or the
document names one that is cached or can be loaded. Asking follows references and
loads documents, so what was legible stays so. -/

namespace Cbt

open Lib.Command (run_bind_iff run_pure_iff)

variable {κ : Oid → Option DBClass} {w w' : World} {k : Kind} {i : Oid} {c? : Option DBClass} {d d' : Doc} {f : RefField}
  {v v' : Pointer} {x x' : Fields}

/-! ### Following references -/

/-- The class of what is loaded under an id: each info has its own, the other collections have one. -/
def Kind.classIn (κ : Oid → Option DBClass) (k : Kind) (i : Oid) : Option DBClass :=
  if k = .infos then κ i else some k.dbClass

/-- A pointer that a getter does not answer with: it is null, or its object does not exist any more. -/
inductive Lib.Conf.Loose (w : World) : Pointer → Prop
  | null : w.Loose .null
  | dead {p : ℕ} {b : IFromDB} {x : Fields} (hp : w.heap.get p = some ⟨some b, x⟩) (hb : b.isExist = false) : w.Loose (.to p)

theorem Lib.Conf.Loose.not_alive {p : ℕ} (h : w.Loose (.to p)) : ¬ w.Alive p := by
  rintro ⟨c, y, hp, hc⟩
  cases h with
  | @dead _ b x hp' hb =>
    obtain ⟨rfl, -⟩ : c = b ∧ y = x := by simpa [hp] using hp'
    simp [hc] at hb

/-- What a look-up of an id answers with: the cached object, or what is loaded. -/
inductive Lib.Conf.Found (κ : Oid → Option DBClass) (w : World) (k : Kind) (i : Oid) : Doc → Fields → Prop
  | cached {p : ℕ} {b : IFromDB} {x : Fields} (hc : w.cached k i = some p) (hp : w.heap.get p = some ⟨some b, x⟩) :
      w.Found κ k i b.doc x
  | stored {d : Doc} {c : DBClass} {x : Fields} (hn : w.cached k i = none) (hs : w.stored k i = some d)
      (hc : k.classIn κ i = some c) (hx : c.fields d = .ok x) : w.Found κ k i d x

/-- What a reference of an object with a document leads to. -/
inductive Lib.Conf.Leads (κ : Oid → Option DBClass) (w : World) (d : Doc) (f : RefField) : Pointer → Doc → Fields → Prop
  | held {p : ℕ} {b : IFromDB} {x : Fields} (hp : w.heap.get p = some ⟨some b, x⟩) (hb : b.isExist = true) :
      w.Leads κ d f (.to p) b.doc x
  | found {v : Pointer} {i : Oid} {d' : Doc} {x : Fields} (hv : w.Loose v) (hi : d.get? f.key = some (.oid i))
      (h : w.Found κ f.kind i d' x) : w.Leads κ d f v d' x

/-- A reference can be followed: its object was not freed, and if it has to be looked up, what the document names can be
loaded as the class that is asked for. -/
structure Lib.Conf.Follows (κ : Oid → Option DBClass) (w : World) (d : Doc) (f : RefField) (c? : Option DBClass) (v : Pointer) :
    Prop where
  given : v ≠ .uninit
  held : ∀ p, v = .to p → ∃ b x, w.heap.get p = some ⟨some b, x⟩
  key : w.Loose v → ∃ u, d.get? f.key = some u
  loads : w.Loose v → ∀ i, d.get? f.key = some (.oid i) → w.cached f.kind i = none → ∀ d', w.stored f.kind i = some d' →
    f.kind.classIn κ i = c? ∧ ∀ c, c? = some c → ∃ x, c.fields d' = .ok x

/-- What a listing of a collection has, or would load. -/
inductive Lib.Conf.Kept (κ : Oid → Option DBClass) (w : World) (k : Kind) : Doc → Fields → Prop
  | cached {p : ℕ} {b : IFromDB} {x : Fields} (hc : p ∈ w.cash k) (hp : w.heap.get p = some ⟨some b, x⟩) : w.Kept κ k b.doc x
  | stored {i : Oid} {d : Doc} {c : DBClass} {x : Fields} (hn : w.cached k i = none) (hs : w.stored k i = some d)
      (hc : k.classIn κ i = some c) (hx : c.fields d = .ok x) : w.Kept κ k d x

/-- The objects an account or a student is asked for. -/
def Fields.asked : Fields → List ℕ
  | .account a => a.additionalInfo.targets
  | .student s => s.owner.targets ++ s.group.targets
  | _ => []

/-- How many accounts and students can be asked for an object. -/
def Lib.Conf.asked (w : World) (p : ℕ) : ℤ := w.heap.sum fun o => (o.fields.asked.count p : ℤ)

/-- An object that does not exist any more outlives all that let go of it. -/
def Lib.Conf.Outlives (w : World) : Prop := ∀ p b x, w.heap.get p = some ⟨some b, x⟩ → b.isExist = false → 0 < b.ownedCount →
  w.asked p ≤ b.ownedCount

/-- Every stored account and group can be loaded, every account that is listed can be asked for its info, and a student for
its group; a student's info is not a teacher's. -/
structure Lib.Conf.Legible (κ : Oid → Option DBClass) (w : World) : Prop where
  accounts : ∀ i d, w.cached .accounts i = none → w.stored .accounts i = some d → ∃ x, DBClass.accountDB.fields d = .ok x
  groups : ∀ i d, w.cached .groups i = none → w.stored .groups i = some d → ∃ x, DBClass.groupDB.fields d = .ok x
  account : ∀ d a, w.Kept κ .accounts d (.account a) →
    w.Follows κ d .additionalInfo (InfosController.classOf a.accountType) a.additionalInfo
  student : ∀ d a d' s, w.Kept κ .accounts d (.account a) → w.Leads κ d .additionalInfo a.additionalInfo d' (.student s) →
    a.accountType ≠ .teacher ∧ w.Follows κ d' .group (some .groupDB) s.group
  outlives : w.Outlives

/-! ### Asking -/

/-- The references an account or a student is asked for. -/
def Fields.asks : Fields → RefField → Bool
  | .account _, .additionalInfo | .student _, .owner | .student _, .group => true
  | _, _ => false

theorem Fields.asked_setRef {a : Pointer} (hf : x.asks f = true) (ha : x.ref f = some a) (v : Pointer) (p : ℕ) :
    ((x.setRef f v).asked.count p : ℤ) = x.asked.count p - a.targets.count p + v.targets.count p := by
  cases x <;> cases f <;> simp only [asks, Bool.false_eq_true] at hf <;>
    simp only [ref, Option.some.injEq] at ha <;> subst ha <;> simp only [setRef, asked, List.count_append] <;> push_cast <;> ring

theorem Fields.mem_asked {p : ℕ} (hf : x.asks f = true) (ha : x.ref f = some (.to p)) : p ∈ x.asked := by
  cases x <;> cases f <;> simp only [asks, Bool.false_eq_true] at hf <;>
    simp only [ref, Option.some.injEq] at ha <;> simp [asked, ha]

theorem Fields.asked_of_bare (hx : x.bare = x) : x.asked = [] := by
  rw [← hx]
  cases x <;> rfl

/-- One step of asking. -/
inductive Asks (κ : Oid → Option DBClass) : World → World → Prop
  | load {w : World} {k : Kind} {i : Oid} {d : Doc} {c : DBClass} {x : Fields} {n : ℤ} (hn : w.cached k i = none)
      (hs : w.stored k i = some d) (hc : k.classIn κ i = some c) (hk : c.kind = k) (hx : c.fields d = .ok x) :
      Asks κ w (w.load k ⟨some { ownedCount := n, doc := d, id := i }, x⟩)
  | take {w : World} {this p : ℕ} {b : IFromDB} {x : Fields} {f : RefField} {i : Oid} (ho : w.heap.get this = some ⟨some b, x⟩)
      (hf : x.asks f = true) (hv : x.ref f = some .null) (hi : b.doc.get? f.key = some (.oid i))
      (hc : w.cached f.kind i = some p) : Asks κ w (w.put this ⟨some b, x.setRef f (.to p)⟩)
  | letGo {w : World} {this p : ℕ} {b c : IFromDB} {x y : Fields} {f : RefField} (ho : w.heap.get this = some ⟨some b, x⟩)
      (hf : x.asks f = true) (hv : x.ref f = some (.to p)) (hp : w.heap.get p = some ⟨some c, y⟩) (hb : c.isExist = false)
      (ht : this ≠ p) (hn : c.ownedCount ≠ 1) :
      Asks κ w ((w.put p ⟨some (c.own (-1)), y⟩).put this ⟨some b, x.setRef f .null⟩)
  | freed {w : World} {this p : ℕ} {b c : IFromDB} {x y : Fields} {f : RefField} (ho : w.heap.get this = some ⟨some b, x⟩)
      (hf : x.asks f = true) (hv : x.ref f = some (.to p)) (hp : w.heap.get p = some ⟨some c, y⟩) (hb : c.isExist = false)
      (ht : this ≠ p) (hn : c.ownedCount = 1) : Asks κ w ((w.free p).put this ⟨some b, x.setRef f .null⟩)
  | listed {w : World} {k : Kind} : Asks κ w (w.setChanged k false)
  | students {w : World} {p : ℕ} {b : IFromDB} {g : Group} {l : List ℕ} (ho : w.heap.get p = some ⟨some b, .group g⟩) :
      Asks κ w (w.put p ⟨some b, .group { g with students := l }⟩)

/-- What a pointer becomes when its object is asked for. -/
inductive Renewed (w w' : World) (d : Doc) (f : RefField) : Pointer → Pointer → Prop
  | same (v : Pointer) : Renewed w w' d f v v
  | dropped {v : Pointer} (h : w.Loose v) : Renewed w w' d f v .null
  | taken {v : Pointer} {i : Oid} {p : ℕ} (h : w.Loose v) (hi : d.get? f.key = some (.oid i))
      (hc : w'.cached f.kind i = some p) : Renewed w w' d f v (.to p)

/-- An object keeps its own values, and its pointers are renewed. -/
structure Fields.Renewed (w w' : World) (d : Doc) (x x' : Fields) : Prop where
  bare : x'.bare = x.bare
  ref : ∀ f v', x'.ref f = some v' → ∃ v, x.ref f = some v ∧ Cbt.Renewed w w' d f v v'

namespace Fields.Renewed

theorem refl (w w' : World) (d : Doc) (x : Fields) : x.Renewed w w' d x := ⟨rfl, fun _ v h => ⟨v, h, .same v⟩⟩

theorem account {a' : Account} (h : x.Renewed w w' d (.account a')) : ∃ a, x = .account a ∧
    a.accountType = a'.accountType ∧ Cbt.Renewed w w' d .additionalInfo a.additionalInfo a'.additionalInfo := by
  obtain ⟨v, hv, hr⟩ := h.ref .additionalInfo _ rfl
  have hb := h.bare
  cases x with
  | account a =>
    obtain rfl := Option.some.inj hv
    replace hb : Fields.account { a' with additionalInfo := .null } = .account { a with additionalInfo := .null } := hb
    simp only [account.injEq, Account.mk.injEq] at hb
    exact ⟨a, rfl, hb.2.1.symm, hr⟩
  | group | additionalInfo | student | teacher | schedule => cases hb

theorem student {s' : StudentInfo} (h : x.Renewed w w' d (.student s')) : ∃ s, x = .student s ∧
    Cbt.Renewed w w' d .owner s.owner s'.owner ∧ Cbt.Renewed w w' d .group s.group s'.group := by
  obtain ⟨v, hv, hr⟩ := h.ref .owner _ rfl
  obtain ⟨u, hu, hr'⟩ := h.ref .group _ rfl
  have hb := h.bare
  cases x with
  | student s =>
    obtain rfl := Option.some.inj hv
    obtain rfl := Option.some.inj hu
    exact ⟨s, rfl, hr, hr'⟩
  | account | group | additionalInfo | teacher | schedule => cases hb

end Fields.Renewed

/-- What asking does to the caches and the objects. -/
structure Renews (κ : Oid → Option DBClass) (w w' : World) : Prop where
  stored : w'.stored = w.stored
  cached : ∀ k i p, w.cached k i = some p → w'.cached k i = some p
  loaded : ∀ k p, p ∈ w'.cash k → p ∈ w.cash k ∨ ∃ i d c b x, w.cached k i = none ∧ w'.cached k i = some p ∧
    w.stored k i = some d ∧ k.classIn κ i = some c ∧ c.fields d = .ok x ∧ b.doc = d ∧ b.id = i ∧
      w'.heap.get p = some ⟨some b, x⟩
  back : ∀ p b' x', p < w.heap.next → w'.heap.get p = some ⟨some b', x'⟩ →
    ∃ b x, w.heap.get p = some ⟨some b, x⟩ ∧ b'.core = b.core ∧ x.Renewed w w' b.doc x'
  firm : ∀ q b' x' p, w'.heap.get q = some ⟨some b', x'⟩ → p ∈ x'.asked → (∃ b x, w.heap.get p = some ⟨some b, x⟩) →
    ∃ b x, w'.heap.get p = some ⟨some b, x⟩
  outlives : w'.Outlives

/-- Objects are overwritten that keep their documents and their own values. -/
theorem renews_of_heap (hs : w'.stored = w.stored) (hc : w'.cached = w.cached) (hm : w'.cash = w.cash)
    (hb : ∀ p b' x', w'.heap.get p = some ⟨some b', x'⟩ →
      ∃ b x, w.heap.get p = some ⟨some b, x⟩ ∧ b'.core = b.core ∧ x.Renewed w w' b.doc x')
    (hf : ∀ q b' x' p, w'.heap.get q = some ⟨some b', x'⟩ → p ∈ x'.asked → (∃ b x, w.heap.get p = some ⟨some b, x⟩) →
      ∃ b x, w'.heap.get p = some ⟨some b, x⟩) (ho : w'.Outlives) : Renews κ w w' where
  stored := hs
  cached k i p h := by rwa [hc]
  loaded k p h := .inl (by rwa [hm] at h)
  back p b' x' _ h := hb p b' x' h
  firm := hf
  outlives := ho

theorem asked_put {p : ℕ} {o o' : Obj} (hp : w.heap.get p = some o) (q : ℕ) :
    (w.put p o').asked q = w.asked q - o.fields.asked.count q + o'.fields.asked.count q :=
  Lib.Heap.sum_set w.heap _ hp

/-- An object is overwritten that still points to what it is asked for, and keeps its count unless it exists. -/
theorem outlives_put (h : w.Outlives) {p : ℕ} {b b' : IFromDB} {x x' : Fields} (hp : w.heap.get p = some ⟨some b, x⟩)
    (ha : x'.asked = x.asked) (hb : b'.isExist = false → b' = b) : (w.put p ⟨some b', x'⟩).Outlives := by
  have hasked : (w.put p ⟨some b', x'⟩).asked = w.asked := by
    funext q
    rw [asked_put hp]
    simp [ha]
  intro q c y hq hc h0
  rw [hasked]
  rw [Lib.Conf.get_put hp] at hq
  split_ifs at hq with he
  · obtain ⟨rfl, -⟩ : b' = c ∧ x' = y := by simpa using hq
    obtain rfl := hb hc
    exact h q b' x (he ▸ hp) hc h0
  · exact h q c y hq hc h0

/-- An object that is there is there after another one was overwritten. -/
theorem exists_get_put {this p : ℕ} {o : Obj} {b : IFromDB} {x : Fields} (ho : w.heap.get this = some o)
    (hp : ∃ c y, w.heap.get p = some ⟨some c, y⟩) : ∃ c y, (w.put this ⟨some b, x⟩).heap.get p = some ⟨some c, y⟩ := by
  rw [Lib.Conf.get_put ho]
  split_ifs
  · exact ⟨b, x, rfl⟩
  · exact hp

/-- An account or a student takes another pointer. -/
theorem renewed_setRef {b : IFromDB} {v u : Pointer} (hv : x.ref f = some v)
    (hr : Renewed w w' b.doc f v u) : x.Renewed w w' b.doc (x.setRef f u) := by
  refine ⟨Fields.bare_setRef _ _ _, fun f' v' h => ?_⟩
  by_cases hff : f' = f
  · subst hff
    rw [Fields.ref_setRef hv] at h
    exact ⟨v, hv, Option.some.inj h ▸ hr⟩
  · rw [Fields.ref_setRef_of_ne hff] at h
    exact ⟨v', h, .same v'⟩

namespace Asks

theorem load_renews (hw : Sound w) (h : w.Outlives) {c : DBClass} {n : ℤ} (hn : w.cached k i = none)
    (hs : w.stored k i = some d) (hc : k.classIn κ i = some c) (hx : c.fields d = .ok x) :
    Renews κ w (w.load k ⟨some { ownedCount := n, doc := d, id := i }, x⟩) := by
  have hbare := DBClass.bare_fields hx
  have hcached := cached_load hw (b := { ownedCount := n, doc := d, id := i }) x hn
  have hget : ∀ p, (w.load k ⟨some { ownedCount := n, doc := d, id := i }, x⟩).heap.get p =
      if p = w.heap.next then some ⟨some { ownedCount := n, doc := d, id := i }, x⟩ else w.heap.get p := Lib.Heap.get_push _ _
  refine ⟨rfl, fun k' j p hp => ?_, fun k' p hp => ?_, fun p b' x' hlt hp => ?_, fun q b' x' p hq hp he => ?_, fun p b y hp hb h0 => ?_⟩
  · rw [hcached, if_neg, hp]
    rintro ⟨rfl, rfl⟩
    simp [hn] at hp
  · rw [Lib.Conf.cash_load] at hp
    split_ifs at hp with hk
    · subst hk
      rcases List.mem_append.mp hp with hp | hp
      · exact .inl hp
      · obtain rfl := List.mem_singleton.mp hp
        exact .inr ⟨i, d, c, _, x, hn, by rw [hcached, if_pos ⟨rfl, rfl⟩], hs, hc, hx, rfl, rfl, by rw [hget, if_pos rfl]⟩
    · exact .inl hp
  · rw [hget, if_neg hlt.ne] at hp
    exact ⟨b', x', hp, rfl, .refl _ _ _ _⟩
  · obtain ⟨b, y, hy⟩ := he
    exact ⟨b, y, Lib.Heap.get_push_of_some _ hy⟩
  · have hasked : (w.load k ⟨some { ownedCount := n, doc := d, id := i }, x⟩).asked p = w.asked p := by
      rw [Lib.Conf.asked, Lib.Conf.heap_load, Lib.Heap.sum_push]
      simp [Lib.Conf.asked, Fields.asked_of_bare hbare]
    rw [hasked]
    rw [hget] at hp
    split_ifs at hp with he
    · obtain ⟨rfl, rfl⟩ : _ = b ∧ x = y := by simpa using hp
      cases hb
    · exact h p b y hp hb h0

theorem take_renews (hw : Sound w) (h : w.Outlives) {this p : ℕ} {b : IFromDB} (ho : w.heap.get this = some ⟨some b, x⟩)
    (hf : x.asks f = true) (hv : x.ref f = some .null) (hi : b.doc.get? f.key = some (.oid i))
    (hc : w.cached f.kind i = some p) : Renews κ w (w.put this ⟨some b, x.setRef f (.to p)⟩) := by
  have hcached : (w.put this ⟨some b, x.setRef f (.to p)⟩).cached = w.cached := cached_put ho rfl
  have hasked : ∀ q, q ≠ p → (w.put this ⟨some b, x.setRef f (.to p)⟩).asked q = w.asked q := by
    intro q hq
    rw [asked_put ho, Fields.asked_setRef hf hv]
    simp [hq.symm]
  obtain ⟨cp, y, hp, hcp, -⟩ := hw.entry _ p (Lib.Conf.cached_mem hc)
  refine renews_of_heap rfl hcached rfl (fun q b' x' hq => ?_) (fun q b' x' r hq hr he => exists_get_put ho he) ?_
  · rw [Lib.Conf.get_put ho] at hq
    split_ifs at hq with he
    · obtain ⟨rfl, rfl⟩ : b = b' ∧ x.setRef f (.to p) = x' := by simpa using hq
      exact ⟨b, x, he ▸ ho, rfl, renewed_setRef hv (.taken .null hi (by rw [hcached, hc]))⟩
    · exact ⟨b', x', hq, rfl, .refl _ _ _ _⟩
  · intro q b' x' hq hb h0
    rw [Lib.Conf.get_put ho] at hq
    have hne : q ≠ p := by
      rintro rfl
      split_ifs at hq with he
      · obtain ⟨rfl, -⟩ : b = b' ∧ x.setRef f (.to q) = x' := by simpa using hq
        obtain ⟨rfl, -⟩ : b = cp ∧ x = y := by simpa [he, ho] using hp
        simp [hb] at hcp
      · obtain ⟨rfl, -⟩ : b' = cp ∧ x' = y := by simpa [hq] using hp
        simp [hb] at hcp
    rw [hasked q hne]
    split_ifs at hq with he
    · obtain ⟨rfl, -⟩ : b = b' ∧ x.setRef f (.to p) = x' := by simpa using hq
      exact h q b x (he ▸ ho) hb h0
    · exact h q b' x' hq hb h0

section Released
variable {this p : ℕ} {b c : IFromDB} {y : Fields}

theorem letGo_renews (h : w.Outlives) (ho : w.heap.get this = some ⟨some b, x⟩) (hf : x.asks f = true)
    (hv : x.ref f = some (.to p)) (hp : w.heap.get p = some ⟨some c, y⟩) (hb : c.isExist = false) (ht : this ≠ p) :
    Renews κ w ((w.put p ⟨some (c.own (-1)), y⟩).put this ⟨some b, x.setRef f .null⟩) := by
  have ho₁ : (w.put p ⟨some (c.own (-1)), y⟩).heap.get this = some ⟨some b, x⟩ := by rw [Lib.Conf.get_put hp, if_neg ht, ho]
  have hget : ∀ q, ((w.put p ⟨some (c.own (-1)), y⟩).put this ⟨some b, x.setRef f .null⟩).heap.get q =
      if q = this then some ⟨some b, x.setRef f .null⟩ else if q = p then some ⟨some (c.own (-1)), y⟩ else w.heap.get q := by
    intro q
    rw [Lib.Conf.get_put ho₁, Lib.Conf.get_put hp]
  have hcached : ((w.put p ⟨some (c.own (-1)), y⟩).put this ⟨some b, x.setRef f .null⟩).cached = w.cached :=
    (cached_put ho₁ rfl).trans (cached_put hp (IFromDB.core_own c (-1)))
  have hasked : ∀ q, ((w.put p ⟨some (c.own (-1)), y⟩).put this ⟨some b, x.setRef f .null⟩).asked q =
      w.asked q - if q = p then 1 else 0 := by
    intro q
    rw [asked_put ho₁, asked_put hp, Fields.asked_setRef hf hv]
    simp only [Pointer.targets_to, Pointer.targets_null, List.count_nil, List.count_singleton, beq_iff_eq]
    split_ifs <;> omega
  refine renews_of_heap rfl hcached rfl (fun q b' x' hq => ?_)
    (fun q b' x' r hq hr he => exists_get_put ho₁ (exists_get_put hp he)) ?_
  · rw [hget] at hq
    split_ifs at hq with he hep
    · obtain ⟨rfl, rfl⟩ : b = b' ∧ x.setRef f .null = x' := by simpa using hq
      exact ⟨b, x, he ▸ ho, rfl, renewed_setRef hv (.dropped (.dead hp hb))⟩
    · obtain ⟨rfl, rfl⟩ : c.own (-1) = b' ∧ y = x' := by simpa using hq
      exact ⟨c, y, hep ▸ hp, rfl, .refl _ _ _ _⟩
    · exact ⟨b', x', hq, rfl, .refl _ _ _ _⟩
  · intro q b' x' hq hb' h0
    rw [hasked]
    rw [hget] at hq
    split_ifs at hq with he hep
    · obtain ⟨rfl, -⟩ : b = b' ∧ x.setRef f .null = x' := by simpa using hq
      rw [if_neg (he ▸ ht)]
      simpa using h q b x (he ▸ ho) hb' h0
    · obtain ⟨rfl, -⟩ : c.own (-1) = b' ∧ y = x' := by simpa using hq
      have hc0 : 0 < c.ownedCount := by
        simp only [IFromDB.own] at h0
        omega
      have := h p c y hp hb hc0
      simp only [IFromDB.own, hep, if_true]
      omega
    · rw [if_neg hep]
      simpa using h q b' x' hq hb' h0

theorem freed_renews (hw : Sound w) (h : w.Outlives) (ho : w.heap.get this = some ⟨some b, x⟩) (hf : x.asks f = true)
    (hv : x.ref f = some (.to p)) (hp : w.heap.get p = some ⟨some c, y⟩) (hb : c.isExist = false) (ht : this ≠ p)
    (hn : c.ownedCount = 1) : Renews κ w ((w.free p).put this ⟨some b, x.setRef f .null⟩) := by
  have ho₁ : (w.free p).heap.get this = some ⟨some b, x⟩ := by rw [Lib.Conf.heap_free, Lib.Heap.get_free, if_neg ht, ho]
  have hget : ∀ q, ((w.free p).put this ⟨some b, x.setRef f .null⟩).heap.get q =
      if q = this then some ⟨some b, x.setRef f .null⟩ else if q = p then none else w.heap.get q := by
    intro q
    rw [Lib.Conf.get_put ho₁, Lib.Conf.heap_free, Lib.Heap.get_free]
  have hone : w.asked p ≤ 1 := hn ▸ h p c y hp hb (by omega)
  have hcached : ((w.free p).put this ⟨some b, x.setRef f .null⟩).cached = w.cached := by
    rw [cached_put ho₁ rfl]
    funext k' j
    refine List.find?_congr fun q hq => ?_
    obtain ⟨bq, xq, hgq, hbq, -⟩ := hw.entry k' q hq
    have hne : q ≠ p := by
      rintro rfl
      obtain ⟨rfl, -⟩ : c = bq ∧ y = xq := by simpa [hp] using hgq
      simp [hb] at hbq
    simp [Lib.Conf.idOf, Lib.Heap.get_free, hne]
  have hasked : ∀ q, ((w.free p).put this ⟨some b, x.setRef f .null⟩).asked q ≤ w.asked q := by
    intro q
    have hsum : (w.free p).asked q = w.asked q - y.asked.count q := Lib.Heap.sum_free _ _ hp
    rw [asked_put ho₁, Fields.asked_setRef hf hv, hsum]
    simp only [Pointer.targets_null, List.count_nil]
    omega
  refine renews_of_heap rfl hcached rfl (fun q b' x' hq => ?_) (fun q b' x' r hq hr he => ?_) ?_
  · rw [hget] at hq
    split_ifs at hq with he hep
    · obtain ⟨rfl, rfl⟩ : b = b' ∧ x.setRef f .null = x' := by simpa using hq
      exact ⟨b, x, he ▸ ho, rfl, renewed_setRef hv (.dropped (.dead hp hb))⟩
    · exact ⟨b', x', hq, rfl, .refl _ _ _ _⟩
  · -- nobody else can be asked for the object that was freed
    have hrp : r ≠ p := by
      rintro rfl
      have hthis : 0 < x.asked.count r := List.count_pos_iff.mpr (Fields.mem_asked hf hv)
      have hpos : (0 : ℤ) < x'.asked.count r := by
        exact_mod_cast List.count_pos_iff.mpr hr
      rw [hget] at hq
      split_ifs at hq with he hep
      · obtain ⟨-, rfl⟩ : b = b' ∧ x.setRef f .null = x' := by simpa using hq
        rw [Fields.asked_setRef hf hv] at hpos
        simp only [Pointer.targets_to, Pointer.targets_null, List.count_singleton_self, List.count_nil] at hpos
        have hsum : (x.asked.count r : ℤ) ≤ w.asked r := Lib.Heap.le_sum w.heap (fun _ => Int.natCast_nonneg _) ho
        omega
      · have hsum : (x.asked.count r : ℤ) + x'.asked.count r ≤ w.asked r :=
          Lib.Heap.add_le_sum w.heap (fun _ => Int.natCast_nonneg _) ho hq (Ne.symm he)
        omega
    obtain ⟨bp, xp, hr'⟩ := he
    refine exists_get_put ho₁ ⟨bp, xp, ?_⟩
    rw [Lib.Conf.heap_free, Lib.Heap.get_free, if_neg hrp, hr']
  · intro q b' x' hq hb' h0
    rw [hget] at hq
    split_ifs at hq with he hep
    · obtain ⟨rfl, -⟩ : b = b' ∧ x.setRef f .null = x' := by simpa using hq
      exact (hasked q).trans (h q b x (he ▸ ho) hb' h0)
    · exact (hasked q).trans (h q b' x' hq hb' h0)

end Released

theorem students_renews (h : w.Outlives) {p : ℕ} {b : IFromDB} {g : Group} {l : List ℕ}
    (ho : w.heap.get p = some ⟨some b, .group g⟩) : Renews κ w (w.put p ⟨some b, .group { g with students := l }⟩) := by
  refine renews_of_heap rfl (cached_put ho rfl) rfl (fun q b' x' hq => ?_) (fun q b' x' r hq hr he => exists_get_put ho he)
    (outlives_put h ho rfl fun _ => rfl)
  rw [Lib.Conf.get_put ho] at hq
  split_ifs at hq with he
  · obtain ⟨rfl, rfl⟩ : b = b' ∧ Fields.group { g with students := l } = x' := by simpa using hq
    refine ⟨b, .group g, he ▸ ho, rfl, rfl, fun f v' hv => ⟨v', ?_, .same v'⟩⟩
    rw [← hv]
    cases f <;> rfl
  · exact ⟨b', x', hq, rfl, .refl _ _ _ _⟩

theorem renews (hw : Sound w) (ho : w.Outlives) (h : Asks κ w w') : Renews κ w w' := by
  cases h with
  | load hn hs hc _ hx => exact load_renews hw ho hn hs hc hx
  | take hp hf hv hi hc => exact take_renews hw ho hp hf hv hi hc
  | letGo hp hf hv hq hb ht _ => exact letGo_renews ho hp hf hv hq hb ht
  | freed hp hf hv hq hb ht hn => exact freed_renews hw ho hp hf hv hq hb ht hn
  | listed =>
    refine renews_of_heap rfl ?_ (by simp) (fun p b x hp => ⟨b, x, hp, rfl, .refl _ _ _ _⟩) (fun _ _ _ _ _ _ he => he) ho
    funext k i
    simp [Lib.Conf.cached, Lib.Conf.idOf]
  | students hp => exact students_renews ho hp

theorem looks (h : Asks κ w w') : Looks w w' := by
  cases h with
  | load hn hs hc hk hx =>
    have hx' := DBClass.cls_fields hx
    subst hx'
    exact .single (.quiet (.load trivial hn hs rfl (by rw [← Fields.kind_cls, hk]) hx))
  | take ho => exact .single (.quiet (.put ho (.setRef _ _ _)))
  | @letGo this p b c x y f ho _ _ hp _ ht _ =>
    have ho₁ : (w.put p ⟨some (c.own (-1)), y⟩).heap.get this = some ⟨some b, x⟩ := by rw [Lib.Conf.get_put hp, if_neg ht, ho]
    exact .tail (.single (.quiet (.put hp (.own (-1) _)))) (.quiet (.put ho₁ (.setRef _ _ _)))
  | @freed this p b c x y f ho _ _ hp hb ht _ =>
    have ho₁ : (w.free p).heap.get this = some ⟨some b, x⟩ := by rw [Lib.Conf.heap_free, Lib.Heap.get_free, if_neg ht, ho]
    exact .tail (.single (.quiet (.reap hp hb))) (.quiet (.put ho₁ (.setRef _ _ _)))
  | listed => exact .single (.listed _ _)
  | students ho => exact .single (.quiet (.put ho ⟨rfl, rfl⟩))

end Asks

/-! ### What stays legible -/

/-- An object is in memory, or it was just made of its document. -/
def Lib.Conf.Seen (w : World) (x : Fields) : Prop := (∃ p b, w.heap.get p = some ⟨some b, x⟩) ∨ x.bare = x

namespace Renews

theorem cached_none (h : Renews κ w w') (hn : w'.cached k i = none) : w.cached k i = none := by
  cases hc : w.cached k i with
  | none => rfl
  | some p => simp [h.cached k i p hc] at hn

theorem found_back (h : Renews κ w w') (hw : Sound w) (hf : w'.Found κ k i d x') :
    ∃ x, w.Found κ k i d x ∧ x.Renewed w w' d x' ∧ w'.Seen x' := by
  cases hf with
  | @cached p b' x' hc hp =>
    have hseen : w'.Seen x' := .inl ⟨p, b', hp⟩
    have hid : b'.id = i := by simpa [Lib.Conf.idOf_of_get hp] using Lib.Conf.cached_idOf hc
    rcases h.loaded k p (Lib.Conf.cached_mem hc) with hm | ⟨j, d, c, b, x, hn, hc', hs, hcl, hx, rfl, rfl, hp'⟩
    · obtain ⟨b, x, hp₀, hcore, hren⟩ := h.back p b' x' (hw.lt_next hm) hp
      simp only [IFromDB.core, Prod.mk.injEq] at hcore
      have hc₀ : w.cached k i = some p := by
        cases hc₀ : w.cached k i with
        | none => exact absurd (by rw [Lib.Conf.idOf_of_get hp₀, ← hcore.1, hid]) (Lib.Conf.cached_eq_none.mp hc₀ p hm)
        | some p₀ => exact (h.cached k i p₀ hc₀).symm.trans hc
      rw [hcore.2.1]
      exact ⟨x, .cached hc₀ hp₀, hren, hseen⟩
    · obtain ⟨rfl, rfl⟩ : b' = b ∧ x' = x := by simpa [hp] using hp'
      subst hid
      exact ⟨x', .stored hn hs hcl hx, .refl _ _ _ _, hseen⟩
  | stored hn hs hc hx =>
    rw [h.stored] at hs
    exact ⟨x', .stored (h.cached_none hn) hs hc hx, .refl _ _ _ _, .inr (DBClass.bare_fields hx)⟩

theorem kept_back (h : Renews κ w w') (hw : Sound w) (hf : w'.Kept κ k d x') :
    ∃ x, w.Kept κ k d x ∧ x.Renewed w w' d x' ∧ w'.Seen x' := by
  cases hf with
  | @cached p b' x' hm hp =>
    have hseen : w'.Seen x' := .inl ⟨p, b', hp⟩
    rcases h.loaded k p hm with hm | ⟨j, d, c, b, x, hn, -, hs, hcl, hx, rfl, -, hp'⟩
    · obtain ⟨b, x, hp₀, hcore, hren⟩ := h.back p b' x' (hw.lt_next hm) hp
      simp only [IFromDB.core, Prod.mk.injEq] at hcore
      rw [hcore.2.1]
      exact ⟨x, .cached hm hp₀, hren, hseen⟩
    · obtain ⟨rfl, rfl⟩ : b' = b ∧ x' = x := by simpa [hp] using hp'
      exact ⟨x', .stored hn hs hcl hx, .refl _ _ _ _, hseen⟩
  | stored hn hs hc hx =>
    rw [h.stored] at hs
    exact ⟨x', .stored (h.cached_none hn) hs hc hx, .refl _ _ _ _, .inr (DBClass.bare_fields hx)⟩

/-- A pointer is looked up again only if it was before. -/
theorem loose_back (h : Renews κ w w') (hr : Renewed w w' d f v v')
    (hh : ∀ p, v = .to p → ∃ b x, w.heap.get p = some ⟨some b, x⟩) (hv : w'.Loose v') : w.Loose v := by
  cases hr with
  | same =>
    cases hv with
    | null => exact .null
    | dead hp hb =>
      obtain ⟨b, x, hp₀⟩ := hh _ rfl
      obtain ⟨b₁, x₁, hp₁, hcore, -⟩ := h.back _ _ _ (Lib.Heap.lt_next hp₀) hp
      simp only [IFromDB.core, Prod.mk.injEq] at hcore
      exact .dead hp₁ (hcore.2.2 ▸ hb)
  | dropped h => exact h
  | taken h => exact h

theorem leads_back (h : Renews κ w w') (hw : Sound w) (hr : Renewed w w' d f v v')
    (hh : ∀ p, v = .to p → ∃ b x, w.heap.get p = some ⟨some b, x⟩) (hl : w'.Leads κ d f v' d' x') :
    ∃ x, w.Leads κ d f v d' x ∧ x.Renewed w w' d' x' ∧ w'.Seen x' := by
  cases hl with
  | @held p b' x' hp hb =>
    cases hr with
    | same =>
      obtain ⟨b, x, hp₀⟩ := hh p rfl
      obtain ⟨b₁, x₁, hp₁, hcore, hren⟩ := h.back p b' x' (Lib.Heap.lt_next hp₀) hp
      simp only [IFromDB.core, Prod.mk.injEq] at hcore
      rw [hcore.2.1]
      exact ⟨x₁, .held hp₁ (hcore.2.2 ▸ hb), hren, .inl ⟨p, b', hp⟩⟩
    | taken hv hi hc =>
      obtain ⟨x, hf, hren⟩ := h.found_back hw (.cached hc hp)
      exact ⟨x, .found hv hi hf, hren⟩
  | found hv hi hf =>
    obtain ⟨x, hf, hren⟩ := h.found_back hw hf
    exact ⟨x, .found (h.loose_back hr hh hv) hi hf, hren⟩

/-- A reference that could be followed still can. -/
theorem follows (h : Renews κ w w') (hw' : Sound w') (hr : Renewed w w' d f v v') (hf : w.Follows κ d f c? v)
    (hfirm : ∀ p, v' = .to p → (∃ b x, w.heap.get p = some ⟨some b, x⟩) → ∃ b x, w'.heap.get p = some ⟨some b, x⟩) :
    w'.Follows κ d f c? v' := by
  have hback := h.loose_back hr hf.held
  refine ⟨?_, fun p hp => ?_, fun hv => hf.key (hback hv), fun hv i hi hn d' hs => ?_⟩
  · cases hr with
    | same => exact hf.given
    | dropped | taken => simp
  · cases hr with
    | same => exact hfirm p hp (hf.held p hp)
    | dropped => cases hp
    | taken _ _ hc =>
      obtain rfl := Pointer.to.inj hp
      obtain ⟨b, x, hp, -⟩ := hw'.entry _ _ (Lib.Conf.cached_mem hc)
      exact ⟨b, x, hp⟩
  · rw [h.stored] at hs
    exact hf.loads (hback hv) i hi (h.cached_none hn) d' hs

/-- What a look-up answers with it answers with when others were asked for. -/
theorem found (h : Renews κ w w') (hw : Sound w) (hl : Looks w w') (hf : w.Found κ k i d x) :
    ∃ x', w'.Found κ k i d x' ∧ x'.bare = x.bare := by
  cases hf with
  | @cached p b x hc hp =>
    obtain ⟨b₀, x₀, hp₀, hb₀, -⟩ := hw.entry k p (Lib.Conf.cached_mem hc)
    obtain ⟨rfl, rfl⟩ : b = b₀ ∧ x = x₀ := by simpa [hp] using hp₀
    obtain ⟨b', x', hp', hcore, hbare⟩ := hl.kept hp hb₀
    simp only [IFromDB.core, Prod.mk.injEq] at hcore
    rw [← hcore.2.1]
    exact ⟨x', .cached (h.cached k i p hc) hp', hbare⟩
  | @stored d c x hn hs hc hx =>
    cases hc' : w'.cached k i with
    | none => exact ⟨x, .stored hc' (by rw [h.stored, hs]) hc hx, rfl⟩
    | some p =>
      have hid := Lib.Conf.cached_idOf hc'
      rcases h.loaded k p (Lib.Conf.cached_mem hc') with hm | ⟨j, d₁, c₁, b, x₁, hn₁, -, hs₁, hc₁, hx₁, rfl, rfl, hp⟩
      · obtain ⟨b, y, hp, hb, -⟩ := hw.entry k p hm
        obtain ⟨b', y', hp', hcore, -⟩ := hl.kept hp hb
        simp only [IFromDB.core, Prod.mk.injEq] at hcore
        refine absurd ?_ (Lib.Conf.cached_eq_none.mp hn p hm)
        rw [Lib.Conf.idOf_of_get hp, ← hcore.1, ← Lib.Conf.idOf_of_get hp', hid]
      · obtain rfl : b.id = i := by simpa [Lib.Conf.idOf_of_get hp] using hid
        obtain rfl := Option.some.inj (hs.symm.trans hs₁)
        obtain rfl := Option.some.inj (hc.symm.trans hc₁)
        obtain rfl := Except.ok.inj (hx.symm.trans hx₁)
        exact ⟨x, .cached hc' hp, rfl⟩

/-- A pointer that is looked up still is, unless its object was freed. -/
theorem loose (h : Renews κ w w')
    (hfirm : ∀ p, v = .to p → (∃ b x, w.heap.get p = some ⟨some b, x⟩) → ∃ b x, w'.heap.get p = some ⟨some b, x⟩)
    (hv : w.Loose v) : w'.Loose v := by
  cases hv with
  | null => exact .null
  | dead hp hb =>
    obtain ⟨b', x', hp'⟩ := hfirm _ rfl ⟨_, _, hp⟩
    obtain ⟨b₁, x₁, hp₁, hcore, -⟩ := h.back _ _ _ (Lib.Heap.lt_next hp) hp'
    obtain ⟨rfl, -⟩ : _ = b₁ ∧ _ = x₁ := by simpa [hp] using hp₁
    simp only [IFromDB.core, Prod.mk.injEq] at hcore
    exact .dead hp' (hcore.2.2.trans hb)

/-- What a reference leads to it leads to when others were asked for. -/
theorem leads (h : Renews κ w w') (hw : Sound w) (hw' : Sound w') (hl : Looks w w') (hr : Renewed w w' d f v v')
    (hfirm : ∀ p, v' = .to p → (∃ b x, w.heap.get p = some ⟨some b, x⟩) → ∃ b x, w'.heap.get p = some ⟨some b, x⟩)
    (hd : w.Leads κ d f v d' x) : ∃ x', w'.Leads κ d f v' d' x' ∧ x'.bare = x.bare := by
  cases hd with
  | @held p b x hp hb =>
    have hp' : w.Alive p := ⟨b, x, hp, hb⟩
    cases hr with
    | same =>
      obtain ⟨b', x', hp', hcore, hbare⟩ := hl.kept hp hb
      simp only [IFromDB.core, Prod.mk.injEq] at hcore
      rw [← hcore.2.1]
      exact ⟨x', .held hp' (hcore.2.2.trans hb), hbare⟩
    | dropped h => exact absurd hp' h.not_alive
    | taken h => exact absurd hp' h.not_alive
  | found hv hi hf =>
    obtain ⟨x', hf', hbare⟩ := h.found hw hl hf
    refine ⟨x', ?_, hbare⟩
    cases hr with
    | same => exact .found (h.loose hfirm hv) hi hf'
    | dropped => exact .found .null hi hf'
    | taken _ hj hc =>
      obtain rfl : _ = _ := by simpa [hi] using hj
      cases hf' with
      | cached hc' hp' =>
        obtain rfl := Option.some.inj (hc.symm.trans hc')
        obtain ⟨c, y, hq, hex, -⟩ := hw'.entry _ _ (Lib.Conf.cached_mem hc)
        obtain ⟨rfl, -⟩ : _ = c ∧ _ = y := by simpa [hp'] using hq
        exact .held hp' hex
      | stored hn => simp [hc] at hn

/-- What an account or a student can be asked for was not freed. -/
theorem firm_of_seen (h : Renews κ w w') (hs : w'.Seen x') (hf : x'.asks f = true) (hv : x'.ref f = some v') (p : ℕ)
    (hp : v' = .to p) (he : ∃ b x, w.heap.get p = some ⟨some b, x⟩) : ∃ b x, w'.heap.get p = some ⟨some b, x⟩ := by
  subst hp
  rcases hs with ⟨q, b', hq⟩ | hbare
  · exact h.firm q b' x' p hq (Fields.mem_asked hf hv) he
  · rcases ref_of_bare hbare hv with hv | ⟨hv, -⟩ <;> cases hv

theorem legible (h : Renews κ w w') (hw : Sound w) (hw' : Sound w') (hl : w.Legible κ) : w'.Legible κ where
  accounts i d hn hs := hl.accounts i d (h.cached_none hn) (by rwa [h.stored] at hs)
  groups i d hn hs := hl.groups i d (h.cached_none hn) (by rwa [h.stored] at hs)
  account d a' hk := by
    obtain ⟨x, hk₀, hren, hseen⟩ := h.kept_back hw hk
    obtain ⟨a, rfl, ht, hr⟩ := hren.account
    rw [← ht]
    exact h.follows hw' hr (hl.account d a hk₀) (h.firm_of_seen (f := .additionalInfo) hseen rfl rfl)
  student d a' d' s' hk hd := by
    obtain ⟨x, hk₀, hren, -⟩ := h.kept_back hw hk
    obtain ⟨a, rfl, ht, hr⟩ := hren.account
    obtain ⟨y, hd₀, hren', hseen⟩ := h.leads_back hw hr (hl.account d a hk₀).held hd
    obtain ⟨s, rfl, -, hr'⟩ := hren'.student
    obtain ⟨hne, hf⟩ := hl.student d a d' s hk₀ hd₀
    exact ⟨ht ▸ hne, h.follows hw' hr' hf (h.firm_of_seen (f := .group) hseen rfl rfl)⟩
  outlives := h.outlives

end Renews

/-! ### A test -/

/-- Every account and group that is stored is in memory, every account has a teacher for its info, and nothing was
deleted. -/
def Lib.Conf.isLoaded (w : World) : Bool :=
  ([Kind.accounts, .groups].all fun k => (w.env.coll k).docs.all fun d =>
    ((d.get? "_id").bind Bson.oid?).any fun i => (w.cached k i).isSome) &&
  ((w.cash .accounts).all fun p => ((w.refOf p .additionalInfo).map Pointer.targets).any fun l =>
    l.any fun q => (w.heap.get q).any fun o => o.fields.isTeacher && o.fromDB.isSome) &&
  w.heap.cells.all fun c => c.all fun o => o.fromDB.all (·.isExist)

section Loaded
variable (h : w.isLoaded = true)
include h

theorem stored_of_isLoaded (hk : k = .accounts ∨ k = .groups) (hn : w.cached k i = none) : w.stored k i ≠ some d := by
  simp only [Lib.Conf.isLoaded, Bool.and_eq_true, List.all_eq_true, List.mem_cons, List.not_mem_nil, or_false] at h
  intro hs
  have := h.1.1 k hk d (Collection.mem_docs.mpr ⟨i, hs⟩)
  rw [stored_id hs] at this
  simp [hn] at this

theorem isExist_of_isLoaded {p : ℕ} {b : IFromDB} (hp : w.heap.get p = some ⟨some b, x⟩) : b.isExist = true := by
  simp only [Lib.Conf.isLoaded, Bool.and_eq_true, List.all_eq_true] at h
  simpa using h.2 _ (List.mem_of_getElem? (Lib.Heap.cells_of_get hp))

theorem teacher_of_isLoaded {a : Account} (hk : w.Kept κ .accounts d (.account a)) : ∃ p ∈ w.cash .accounts, ∃ q b t,
    w.refOf p .additionalInfo = some a.additionalInfo ∧ a.additionalInfo = .to q ∧ w.heap.get q = some ⟨some b, .teacher t⟩ ∧
      b.isExist = true := by
  cases hk with
  | stored hn hs => exact absurd hs (stored_of_isLoaded h (.inl rfl) hn)
  | @cached p b _ hc hp =>
    have hinfo := h
    simp only [Lib.Conf.isLoaded, Bool.and_eq_true, List.all_eq_true] at hinfo
    have hinfo := hinfo.1.2 p hc
    rw [refOf_of_get hp] at hinfo
    simp only [Fields.ref, Option.map_some, Option.any_some, List.any_eq_true, Option.any_eq_true] at hinfo
    obtain ⟨q, hq, ⟨c?, y⟩, ho, hy⟩ := hinfo
    obtain ⟨hy, hc'⟩ := (Bool.and_eq_true _ _).mp hy
    obtain ⟨c, rfl⟩ := Option.isSome_iff_exists.mp hc'
    have hv : a.additionalInfo = .to q := by cases hv : a.additionalInfo <;> simp_all [Pointer.targets]
    cases y with
    | teacher t => exact ⟨p, hc, q, c, t, refOf_of_get hp _, hv, ho, isExist_of_isLoaded h ho⟩
    | account | group | additionalInfo | student | schedule => cases hy

/-- Such a memory is legible. -/
theorem legible_of_isLoaded : w.Legible κ := by
  refine ⟨fun i d hn hs => absurd hs (stored_of_isLoaded h (.inl rfl) hn), fun i d hn hs => absurd hs (stored_of_isLoaded h (.inr rfl) hn),
    fun d a hk => ?_, fun d a d' s hk hl => ?_, fun p b x hp hb => by simp [isExist_of_isLoaded h hp] at hb⟩
  · obtain ⟨p, -, q, b, t, -, hv, hq, hb⟩ := teacher_of_isLoaded h hk
    have hnot : ¬ w.Loose a.additionalInfo := by
      rw [hv]
      exact fun h => h.not_alive ⟨b, _, hq, hb⟩
    refine ⟨by simp [hv], fun p hp => ?_, fun h => absurd h hnot, fun h => absurd h hnot⟩
    obtain rfl := Pointer.to.inj (hv.symm.trans hp)
    exact ⟨b, _, hq⟩
  · obtain ⟨p, -, q, b, t, -, hv, hq, hb⟩ := teacher_of_isLoaded h hk
    rw [hv] at hl
    cases hl with
    | held hp => simp [hq] at hp
    | found h => exact absurd ⟨b, _, hq, hb⟩ h.not_alive

end Loaded

end Cbt
