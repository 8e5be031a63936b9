import Cbt.Sharing.Screens

/-! Any number of clients, call by call. A client that begins an event, is served, or ends
and starts again leaves every document of the class its id names and every memory known.
So this holds however the calls of the clients follow each other. -/

namespace Cbt

open Lib (Shared)

variable {ι : Type} [DecidableEq ι] {k k' : Kind} {K : Kind → Prop} {κ : Names} {s s' : Clients ι} {as bs : List (ι × Move)}

/-! ### One call -/

/-- A call that is served leaves the collections alone that it does not write to. -/
theorem get?_serve {c : Call} {db db' : Database} {r : c.Answer} (h : Database.serve c db = .ok (r, db'))
    (hk : ¬ c.writes k) (i : Oid) : db'.get? k i = db.get? k i := by
  cases c with
  | find | findOne =>
    cases h
    rfl
  | insertOne k'' d =>
    simp only [Database.serve] at h
    split at h
    · cases h
      rw [Database.get?_insert, if_neg fun h => hk h.1]
    · cases h
  | replaceOne k'' o d =>
    simp only [Database.serve] at h
    split at h
    · cases h
      rfl
    · split_ifs at h
      cases h
      rw [Database.get?_replace, if_neg fun h => hk h.1]
  | deleteOne k'' o =>
    simp only [Database.serve] at h
    split at h <;> cases h
    · rfl
    · rw [Database.get?_erase, if_neg fun h => hk h.1]

/-- Ids are given out in order. -/
theorem nextOid_le_serve {c : Call} {db db' : Database} {r : c.Answer} (h : Database.serve c db = .ok (r, db')) :
    db.nextOid ≤ db'.nextOid := by
  cases c <;> simp only [Database.serve] at h
  case find => cases h; exact le_rfl
  case findOne => cases h; exact le_rfl
  case insertOne k d =>
    split at h <;> cases h
    exact Nat.le_succ _
  case replaceOne k o d =>
    split at h
    · cases h; exact le_rfl
    · split_ifs at h
      cases h
      exact le_rfl
  case deleteOne k o => split at h <;> cases h <;> exact le_rfl

/-- The database has not been written to, or one call of `K` was served. -/
theorem Move.Step.named {a : Move} {w w' : Lib.Conf Database Rest} (h : a.Step w w') (hdb : Named κ w.env)
    (hm : Rest.Keeps K κ w.mem) (ha : ∀ e, a = .begin e → ∀ k, e.writes k → K k) :
    (∃ κ', κ ≤ κ' ∧ Named κ' w'.env ∧ Rest.Keeps K κ' w'.mem) ∧
      (w'.env = w.env ∨ ∃ (c : Call) (r : c.Answer), c.Within K ∧ Database.serve c w.env = .ok (r, w'.env)) := by
  cases h with
  | @begin e db win p => exact ⟨⟨κ, le_rfl, hdb, keeps_event (ha e rfl) win hm⟩, .inl rfl⟩
  | next h =>
    obtain ⟨hκ, c, r, hc, hs⟩ := Lib.Program.Upholds.next hm hdb h
    exact ⟨hκ, .inr ⟨c, r, hc, hs⟩⟩
  | restart => exact ⟨⟨κ, le_rfl, hdb, keeps_fresh _⟩, .inl rfl⟩

/-! ### Runs -/

/-- Clients all of whose documents and objects are of the classes of their ids. -/
abbrev Clients.Named (K : Kind → Prop) (κ : Names) (s : Clients ι) : Prop := Shared.At Cbt.Named (Rest.Keeps K) κ s

omit [DecidableEq ι] in
theorem Clients.named_start {db : Database} (h : Cbt.Named κ db) (date : ι → QDate) :
    Clients.Named K κ (Clients.start db date) := ⟨h, fun i => keeps_fresh (date i)⟩

/-- The clients begin events that write to collections of `K` only. -/
abbrev Clients.RunWithin (K : Kind → Prop) (s : Clients ι) (as : List (ι × Move)) (s' : Clients ι) : Prop :=
  Clients.Run (fun e => ∀ k, e.writes k → K k) s as s'

/-- What every served call of `K` keeps holds after every run. -/
theorem Clients.Named.after {I : Database → Prop} (h : Clients.Named K κ s) (h0 : I s.env)
    (hserve : ∀ (c : Call) (r : c.Answer) db db', c.Within K → Database.serve c db = .ok (r, db') → I db → I db')
    (hr : Clients.RunWithin K s as s') : (∃ κ', κ ≤ κ' ∧ Clients.Named K κ' s') ∧ I s'.env := by
  have h₁ : Shared.At (fun κ db => Cbt.Named κ db ∧ I db) (Rest.Keeps K) κ s := ⟨⟨h.env, h0⟩, h.mem⟩
  have hmono : ∀ (κ κ' : Names) (m : Rest), κ ≤ κ' → Rest.Keeps K κ m → Rest.Keeps K κ' m := fun _ _ _ hκ => Rest.Keeps.mono hκ
  have hstep : ∀ (a : Move) (κ : Names) (w w' : Lib.Conf Database Rest), Cbt.Named κ w.env ∧ I w.env → Rest.Keeps K κ w.mem →
      (∀ e, a = .begin e → ∀ k, e.writes k → K k) → a.Step w w' →
      ∃ κ', κ ≤ κ' ∧ (Cbt.Named κ' w'.env ∧ I w'.env) ∧ Rest.Keeps K κ' w'.mem := by
    intro a κ w w' hw hm ha hs
    obtain ⟨⟨κ', hκ, hdb, hm'⟩, hcall⟩ := hs.named hw.1 hm ha
    refine ⟨κ', hκ, ⟨hdb, ?_⟩, hm'⟩
    obtain he | ⟨c, r, hc, hcall⟩ := hcall
    · exact he ▸ hw.2
    · exact hserve c r _ _ hc hcall hw.2
  obtain ⟨κ', hκ, h₂⟩ := h₁.after hmono hstep hr
  exact ⟨⟨κ', hκ, h₂.env.1, h₂.mem⟩, h₂.env.2⟩

/-- Every event may be begun. -/
theorem Clients.Run.within (hr : Clients.Run (fun _ => True) s as s') : Clients.RunWithin (fun _ => True) s as s' :=
  hr.mono fun _ _ _ _ _ _ _ => trivial

theorem Clients.Named.run (h : Clients.Named (fun _ => True) κ s) (hr : Clients.Run (fun _ => True) s as s') :
    ∃ κ', κ ≤ κ' ∧ Clients.Named (fun _ => True) κ' s' :=
  (h.after (I := fun _ => True) trivial (fun _ _ _ _ _ _ _ => trivial) hr.within).1

/-- From a moment when no client is at something, a collection that no event begun writes to stays as it is. -/
theorem Clients.Named.untouched (h : Clients.Named (fun _ => True) κ s) (hidle : ∀ i, ∃ win p, s.mem i = .idle win p)
    (hr : Clients.RunWithin K s bs s') (hk : ¬ K k) (i : Oid) : s'.env.get? k i = s.env.get? k i := by
  have h₁ : Clients.Named K κ s := by
    refine ⟨h.env, fun j => ?_⟩
    obtain ⟨win, p, hj⟩ := hidle j
    have hm := h.mem j
    rw [hj] at hm ⊢
    exact keeps_idle hm
  refine (h₁.after (I := fun db => db.get? k i = s.env.get? k i) rfl ?_ hr).2
  exact fun c r db db' hc hs he => (get?_serve hs (fun hw => hk (hc k hw)) i).trans he

/-! ### What the documents say -/

/-- A stored document that is read as an object of a concrete class: the id names this class. -/
theorem Named.cls {db : Database} {i : Oid} {d : Doc} {c : DBClass} {x : Fields} (h : Named κ db)
    (hd : db.get? c.kind i = some d) (hc : c ≠ .additionalInfoDB) (hx : c.fields d = .ok x) : κ.cls i = some c := by
  obtain hi | ⟨hi, -⟩ := (h.record _ i d hd).admits hx
  · exact hi
  · exact absurd hi hc

/-- The collection of a stored document is the one of the class its id names. -/
theorem Named.kind {db : Database} {i : Oid} {d : Doc} (h : Named κ db) (hd : db.get? k i = some d) :
    ∃ c, κ.cls i = some c ∧ c.kind = k := by
  obtain ⟨c, -, hk, hi | ⟨hc, c', hi, hk'⟩, -⟩ := h.record k i d hd
  · exact ⟨c, hi, hk⟩
  · refine ⟨c', hi, hk'.trans ?_⟩
    rw [← hk, hc]
    rfl

/-- An id under the key of a member is a reference: the document is of a class that has the member, and the id names an
entity that the member may designate. -/
theorem Named.member_ref {db : Database} {i j : Oid} {d : Doc} {f : RefField} (h : Named κ db) (hd : db.get? k i = some d)
    (hf : d.get? f.key = some (.oid j)) :
    (∃ c : DBClass, c.kind = k ∧ f ∈ c.refs) ∧ ∃ c, κ.cls j = some c ∧ f.designates c = true := by
  obtain ⟨c, d', hk, -, ⟨x, ref, m, rfl, rfl, href, hm⟩, rfl⟩ := h.record k i d hd
  rw [Doc.get?_cons, if_neg (by cases f <;> decide)] at hf
  have hne : ∀ o, m ≠ .oid o := by
    rintro o rfl
    obtain hm | ⟨ids, hm, -⟩ := hm
    · simp [nullValue] at hm
    · cases hm
  obtain ⟨f', hf', hkey, hv⟩ := ref_of_written hf hne
  obtain rfl := RefField.key_injective hkey
  refine ⟨⟨_, hk, hf'⟩, ?_⟩
  obtain hn | ⟨j', c, hj, hc, hdes⟩ := href f hf'
  · simp [hv, nullValue] at hn
  · obtain rfl := Bson.oid.inj (hv.symm.trans hj)
    exact ⟨c, hc, hdes⟩

theorem Named.ref {db : Database} {i j : Oid} {d : Doc} {f : RefField} (h : Named κ db) (hd : db.get? k i = some d)
    (hf : d.get? f.key = some (.oid j)) : ∃ c, κ.cls j = some c ∧ f.designates c = true :=
  (h.member_ref hd hf).2

/-- An id among the members of a group names a student. -/
theorem Named.member {db : Database} {i j : Oid} {d : Doc} {vs : List Element} (h : Named κ db)
    (hd : db.get? .groups i = some d) (hvs : d.get? "Members" = some (.array vs)) (hj : .oid j ∈ vs) :
    κ.cls j = some .studentInfoDB := by
  obtain ⟨c, d', hk, -, ⟨x, ref, m, rfl, rfl, href, hm⟩, rfl⟩ := h.record .groups i d hd
  have hmem : m = .array vs := by
    cases x <;> simp [Fields.written] at hvs ⊢
    exact hvs
  obtain hm | ⟨ids, hm, hids⟩ := hm
  · simp [hmem, nullValue] at hm
  · obtain rfl := Bson.array.inj (hmem.symm.trans hm)
    obtain ⟨j', hj', he⟩ := List.mem_map.mp hj
    obtain rfl := Element.oid.inj he
    exact hids j' hj'

end Cbt
