import Cbt.Effects.Storing

/-! One call of `Update`, on an object of any class and in any state. The document
of the object replaces the stored one under its `_id` and is read back before the
result of the replacement is looked at; without a stored document there is
nothing to read back, and the call throws. -/

namespace Cbt

variable {w w' : World} {k : Kind} {el : ℕ} {b : IFromDB} {x : Fields} {h : Memory}

/-! ### Objects that describe a document -/

/-- Every pointer of an object is null or designates an object of a `…DB` class that was not deleted from memory. -/
structure Referring (h : Memory) (x : Fields) : Prop where
  ref : ∀ f v, x.ref f = some v → v = .null ∨ ∃ p b, v = .to p ∧ header h p = .ok b
  students : ∀ g, x = .group g → ∀ p ∈ g.students, ∃ b, header h p = .ok b

theorem value_isOk_iff {v : Pointer} :
    (∃ u, v.value h = .ok u) ↔ v = .null ∨ ∃ p b, v = .to p ∧ header h p = .ok b := by
  cases v with
  | uninit => simp [Pointer.value]
  | null => simp [Pointer.value]
  | «to» p =>
    simp only [Pointer.value]
    cases hp : header h p <;> simp [hp]

theorem existingIds_isOk_iff {l : List ℕ} :
    (∃ ids, existingIds h l = .ok ids) ↔ ∀ p ∈ l, ∃ b, header h p = .ok b := by
  induction l with
  | nil => simp [existingIds]
  | cons p l ih =>
    rw [List.forall_mem_cons, ← ih]
    simp only [existingIds]
    cases header h p <;> cases existingIds h l <;> simp

theorem membersValue_isOk_iff {l : List ℕ} :
    (∃ m, membersValue h l = .ok m) ↔ ∀ p ∈ l, ∃ b, header h p = .ok b := by
  rw [← existingIds_isOk_iff]
  unfold membersValue
  split_ifs with hl
  · simp [List.isEmpty_iff.mp hl, existingIds]
  · cases existingIds h l <;> simp [Functor.map, Except.map]

/-- An object describes a document exactly when all that it refers to is still there. -/
theorem exists_toDoc_iff : (∃ d, x.toDoc h = .ok d) ↔ Referring h x := by
  constructor
  · rintro ⟨d, hd⟩
    obtain ⟨ref, members, hw, -⟩ := toDoc_eq_ok.mp hd
    exact ⟨fun f v hv => value_isOk_iff.mp ⟨_, hw.ref f v hv⟩,
      fun g hg => membersValue_isOk_iff.mp ⟨_, hw.members g hg⟩⟩
  · intro hx
    obtain ⟨ref, members, hw⟩ := exists_writes (fun f v hv => value_isOk_iff.mpr (hx.ref f v hv))
      fun g hg => membersValue_isOk_iff.mpr (hx.students g hg)
    exact ⟨_, toDoc_eq_ok.mpr ⟨ref, members, hw, rfl⟩⟩

/-- Memories with the same ids and existence hold what an object refers to, or both do not. -/
theorem Referring.congr {h h' : Memory} {x : Fields} (hi : ∀ p, ident h' p = ident h p) :
    Referring h' x ↔ Referring h x := by
  simp only [← exists_toDoc_iff, toDoc_congr hi]

/-- An object as its constructor makes it refers to nothing; only a schedule's pointers have no value then. -/
theorem Referring.of_bare (hx : x.bare = x) (hk : x.kind ≠ .schedules) : Referring h x := by
  refine ⟨fun f v hv => .inl ?_, ?_⟩
  · rcases ref_of_bare hx hv with rfl | ⟨-, hs⟩
    · rfl
    · exact absurd hs hk
  · rintro g rfl p hp
    have hg : g.students = [] := by
      simp only [Fields.bare, Fields.group.injEq] at hx
      rw [← hx]
    rw [hg] at hp
    cases hp

/-! ### What the call reports -/

/-- `Update` tells whether a document with the object's `_id` was stored. If one was, it is replaced by what the object
describes, which the object remembers; if none was, nothing changes. -/
structure Reports (w : World) (k : Kind) (el : ℕ) (b : IFromDB) (x : Fields) : Prop where
  stored : (w.stored k b.id).isSome → ∃ d w', Obj.toDoc w.heap ⟨some b, x⟩ = .ok d ∧
    run (Controller.update k el) w = .ok (true, w') ∧ w'.heap.get el = some ⟨some (b.withDoc d), x⟩ ∧
    (∀ q, q ≠ el → w'.heap.get q = w.heap.get q) ∧ w'.cash = w.cash ∧
    ∀ k' o, w'.stored k' o = if k' = k ∧ o = b.id then some d else w.stored k' o
  missing : w.stored k b.id = none → ∃ w', run (Controller.update k el) w = .ok (false, w') ∧
    w'.heap = w.heap ∧ w'.cash = w.cash ∧ w'.stored = w.stored

/-- The call never returns `false`. -/
theorem run_update_ne_false : run (Controller.update k el) w ≠ .ok (false, w') := by
  intro hr
  obtain ⟨_, _, _, _, _, _, _, hf, -⟩ := run_update_iff.mp hr
  cases hf

/-- `Update` reports what it did exactly when there is a document to replace. -/
theorem reports_iff (he : w.heap.get el = some ⟨some b, x⟩) (hk : x.kind = k) :
    Reports w k el b x ↔ (w.stored k b.id).isSome ∧ Referring w.heap x := by
  subst hk
  constructor
  · intro hr
    have hs : (w.stored x.kind b.id).isSome := by
      by_contra hn
      obtain ⟨w', hrun, -⟩ := hr.missing (by simpa using hn)
      exact run_update_ne_false hrun
    obtain ⟨d, w', hd, -⟩ := hr.stored hs
    obtain ⟨d', hd', -⟩ := toDoc_db_iff.mp hd
    exact ⟨hs, exists_toDoc_iff.mp ⟨d', hd'⟩⟩
  · rintro ⟨hs, hx⟩
    obtain ⟨d, hd⟩ := exists_toDoc_iff.mpr hx
    obtain ⟨w', hrun, hheap, hcash, -, -, hstored⟩ := run_update_of he hs hd
    refine ⟨fun _ => ⟨_, w', toDoc_db_iff.mpr ⟨d, hd, rfl⟩, hrun, ?_, fun q hq => ?_, hcash, hstored⟩, fun hn => ?_⟩
    · rw [hheap, Lib.Heap.get_set _ he, if_pos rfl]
    · rw [hheap, Lib.Heap.get_set _ he, if_neg hq]
    · simp [hn] at hs

/-! ### A group that was deleted -/

/-- One group without a curator or students. -/
def loneGroup : Database :=
  Database.empty.insert .groups [("Name", .string "group"), ("Curator", nullValue), ("Members", nullValue)]

/-- The update of the group after it was loaded. -/
theorem reports_of_loaded : ∃ w b x, w.heap.get 0 = some ⟨some b, x⟩ ∧ Reports w .groups 0 b x := by
  have hplay : ((Action.getFromDB .groups 0 .admin).next? (World.start loneGroup)).any (fun w =>
      (w.heap.get 0).any (fun o => o.fields = .group { name := "group" } ∧
        o.fromDB.any fun b => (w.stored .groups b.id).isSome)) = true := by decide
  obtain ⟨w, -, ho⟩ := Option.any_eq_true .. |>.mp hplay
  obtain ⟨⟨c, x⟩, hget, ho⟩ := Option.any_eq_true .. |>.mp ho
  obtain ⟨hx, hc⟩ := of_decide_eq_true ho
  obtain ⟨b, rfl, hs⟩ := Option.any_eq_true .. |>.mp hc
  obtain rfl : x = .group { name := "group" } := hx
  exact ⟨w, b, _, hget, (reports_iff hget rfl).mpr ⟨hs, .of_bare rfl (by simp [Fields.kind])⟩⟩

/-- A student's info keeps the object of a group after the group was deleted; its update throws. -/
theorem not_reports_always : ¬ ∀ db as w k el b x, Lib.Run Action.Step Lib.Free (World.start db) as w →
    w.heap.get el = some ⟨some b, x⟩ → x.kind = k → Referring w.heap x → Reports w k el b x := by
  intro hall
  have hplay : (play [.getFromDB .groups 0 .admin, .new (.studentInfo "first" "second" 1), .setRef .group 1 (some 0),
      .delete .groups 0] (World.start loneGroup)).any (fun w =>
      (w.heap.get 0).any (fun o => o.fields = .group { name := "group" } ∧
        o.fromDB.any fun b => w.stored .groups b.id = none)) = true := by decide
  obtain ⟨w, hw, ho⟩ := Option.any_eq_true .. |>.mp hplay
  obtain ⟨⟨c, x⟩, hget, ho⟩ := Option.any_eq_true .. |>.mp ho
  obtain ⟨hx, hc⟩ := of_decide_eq_true ho
  obtain ⟨b, rfl, hs⟩ := Option.any_eq_true .. |>.mp hc
  obtain rfl : x = .group { name := "group" } := hx
  have hr := hall loneGroup _ w .groups 0 b _ (run_of_play hw) hget rfl (.of_bare rfl (by simp [Fields.kind]))
  obtain ⟨w', hrun, -⟩ := hr.missing (of_decide_eq_true hs)
  exact run_update_ne_false hrun

end Cbt
