import Cbt.Sharing.Clients

/-! What holds in every interleaving of the collection calls of any number of clients,
each of which may end at any call and start again. The documents stay readable and their
references lead to entities of the right class or to none, an id is never used again, the
server refuses no call, and nobody touches a collection no event of theirs writes to. -/

namespace Cbt

variable {ι : Type} [DecidableEq ι] {k k' : Kind} {κ : Names} {db : Database} {date : ι → QDate} {s s' : Clients ι}
  {as bs : List (ι × Move)}

/-- A database without documents names nothing. -/
theorem named_empty : Named ⟨fun _ => none⟩ Database.empty where
  record _ _ _ h := by cases h
  given _ _ h := by cases h
  concrete _ h := by cases h

/-- A document of a collection can be read as an object of a concrete class. -/
def DBClass.Reads (c : DBClass) (k : Kind) (d : Doc) : Prop := c.kind = k ∧ c ≠ .additionalInfoDB ∧ ∃ x, c.fields d = .ok x

theorem Named.cls_of_reads {i : Oid} {d : Doc} {c : DBClass} (h : Named κ db) (hd : db.get? k i = some d)
    (hc : c.Reads k d) : κ.cls i = some c := by
  obtain ⟨rfl, hne, x, hx⟩ := hc
  exact h.cls hd hne hx

/-- Two clients that have just started on it. -/
def twoStart : Clients Bool := Clients.start Database.empty fun _ => .fromJulianDay 0

/-- One stores an account and a student's info of it, the other one a group, each while the other is at something. -/
def twoStore : List (Bool × Move) :=
  [(false, .begin (.call (.new (.account "login" "password" .student)))), (false, .begin (.call (.add .accounts 0 .admin))),
    (true, .begin (.call (.new (.group "group")))), (true, .begin (.call (.add .groups 0 .admin))),
    (false, .next), (true, .next), (true, .next), (false, .next),
    (true, .begin (.call (.getAll .accounts))), (false, .begin (.call (.new (.studentInfo "first" "second" 1)))),
    (false, .begin (.call (.setRef .owner 2 (some 1)))), (false, .begin (.call (.add .infos 2 .student))),
    (false, .next), (true, .next), (false, .next), (false, .next), (false, .next)]

/-- The server refuses no call of any client. -/
theorem call_served {i : ι} {c : Call} {next : c.Answer → Rest} (hdb : Named κ db)
    (hr : Clients.Run (fun _ => True) (Clients.start db date) as s) (hi : s.mem i = .call c next) :
    ∃ r db', Database.serve c s.env = .ok (r, db') := by
  obtain ⟨κ', -, h⟩ := (Clients.named_start hdb date).run hr
  have hm := h.mem i
  rw [hi] at hm
  obtain ⟨r, db', hs, -⟩ := hm.2 κ' s.env le_rfl h.env
  exact ⟨r, db', hs⟩

/-- A group is replaced after another client deleted it. -/
theorem call_served_two : ∃ (s : Clients Bool) (c : Call) (next : c.Answer → Rest), s.mem true = .call c next ∧
    s.env.get? .groups 0 = none ∧ ∃ r db', Database.serve c s.env = .ok (r, db') := by
  have hplay : (Clients.play [(true, .begin (.call (.new (.group "group")))), (true, .begin (.call (.add .groups 0 .admin))),
      (true, .next), (true, .next), (false, .begin (.call (.getFromDB .groups 0 .admin))), (false, .next),
      (true, .begin (.call (.update .groups 1))), (false, .begin (.call (.delete .groups 0))), (false, .next)] twoStart).any
        (fun s => s.env.get? .groups 0 = none ∧ (s.mem true).isIdle = false ∧ (Clients.play [(true, .next)] s).isSome) = true := by
    decide +kernel
  obtain ⟨s, hs, hp⟩ := Option.any_eq_true .. |>.mp hplay
  obtain ⟨hn, hbusy, hnext⟩ := of_decide_eq_true hp
  cases hm : s.mem true with
  | done r => simp [hm, Rest.isIdle] at hbusy
  | fault e => simp [Clients.play, Lib.Shared.conf, hm, Move.next?] at hnext
  | call c next => exact ⟨s, c, next, hm, hn, call_served named_empty (Clients.run_of_play (fun _ _ _ _ => trivial) hs) hm⟩

/-- From a moment when no client is at something, a collection that no event begun writes to stays as it is. -/
theorem collection_untouched {K : Kind → Prop} (hdb : Named κ db)
    (hr : Clients.Run (fun _ => True) (Clients.start db date) as s) (hidle : ∀ i, ∃ win p, s.mem i = .idle win p)
    (hr' : Clients.Run (fun e => ∀ k, e.writes k → K k) s bs s') (hk : ¬ K k) (i : Oid) :
    s'.env.get? k i = s.env.get? k i := by
  obtain ⟨κ', -, h⟩ := (Clients.named_start hdb date).run hr
  exact h.untouched hidle hr' hk i

/-- Whatever the group screen does, the accounts stay. -/
theorem collection_untouched_two : ∃ s s' : Clients Bool, (s.env.get? .accounts 0).isSome ∧ (s'.env.get? .groups 3).isSome ∧
    ∀ i, s'.env.get? .accounts i = s.env.get? .accounts i := by
  have hplay : (Clients.play twoStore twoStart).any (fun s => (s.env.get? .accounts 0).isSome ∧
      (s.mem false).isIdle ∧ (s.mem true).isIdle ∧
        (Clients.play [(true, .begin (.call (.new (.group "other")))), (true, .begin (.call (.add .groups 3 .admin))),
          (true, .next), (true, .next)] s).any (fun s' => (s'.env.get? .groups 3).isSome)) = true := by decide +kernel
  obtain ⟨s, hs, hp⟩ := Option.any_eq_true .. |>.mp hplay
  obtain ⟨h₀, hf, ht, hp'⟩ := of_decide_eq_true hp
  obtain ⟨s', hs', h₁⟩ := Option.any_eq_true .. |>.mp hp'
  have hi : ∀ i, ∃ win p, s.mem i = .idle win p := by
    intro i
    cases i
    · exact Rest.isIdle_iff.mp hf
    · exact Rest.isIdle_iff.mp ht
  have hr' : Clients.Run (fun e => ∀ k, e.writes k → k = .groups) s _ s' := Clients.run_of_play ?_ hs'
  · exact ⟨s, s', h₀, h₁, fun i => collection_untouched named_empty
      (Clients.run_of_play (fun _ _ _ _ => trivial) hs) hi hr' (by simp) i⟩
  intro a ha e he k hk
  simp only [List.mem_cons, List.not_mem_nil, or_false] at ha
  rcases ha with rfl | rfl | rfl | rfl <;> simp only [Move.begin.injEq, reduceCtorEq] at he <;> subst he
  · exact hk.elim
  · exact hk

end Cbt
