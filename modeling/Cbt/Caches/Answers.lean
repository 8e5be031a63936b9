import Cbt.Effects.Answering
import Cbt.Caches.Targets

/-! What the getters answer. In a traced world a getter of an object that exists
returns: the object its stored reference names, which exists, or null when
nothing stored is named; and no pointer to a destroyed object is left in the
member. -/

namespace Cbt

open Lib.Command (run_bind_iff run_pure_iff run_fault_iff run_ofExcept_iff)

variable {w w' : World} {g : Getter} {this : ℕ} {r : Option ℕ} {twin : Oid → Prop}

namespace Traced

theorem ofDoc_of_isOf {k : Kind} {c : DBClass} {d : Doc} {oid : Oid} (hs : w.stored k oid = some d) (hd : d.IsOf c) :
    ∃ o, c.ofDoc d = .ok o ∧ o.fields.cls = c := by
  obtain ⟨x, hx⟩ := hd.fields
  exact ⟨_, ofDoc_eq_ok.mpr ⟨x, oid, hx, stored_id hs, rfl⟩, DBClass.cls_fields hx⟩

theorem isTeacher_of_cls {x : Fields} (h : x.cls = .teacherInfoDB) : x.isTeacher = true := by
  cases x <;> first | rfl | cases h

/-- Every id a stored document names under the key of a getter has a target. -/
theorem target (h : Traced w (fun _ => False) twin) {b : IFromDB} {x : Fields} {oid : Oid} (hg : g ≠ .getTeacher)
    (ht : w.Has this b x) (hf : g.field ∈ x.cls.refs) (hd : b.doc.get? g.key = some (.oid oid)) :
    g.Target w this oid := by
  have hsd := h.doc this b x ht
  cases hc : w.cached g.kind oid with
  | some p =>
    obtain ⟨b', y, hp, hb', hk⟩ := h.sound.entry _ _ (Lib.Conf.cached_mem hc)
    have hhas : w.Has p b' y := ⟨hp, hb'⟩
    have hid : b'.id = oid := by simpa [Lib.Conf.idOf_of_get hp] using Lib.Conf.cached_idOf hc
    have hs := h.doc p b' y hhas
    refine .cached hc hp ?_
    cases g with
    | getTeacher => exact absurd rfl hg
    | getCurator =>
      have hx : x.kind = .groups := by cases x <;> simp [Getter.field, Fields.cls, DBClass.refs] at hf; rfl
      rw [hx] at hsd
      rw [hk, hid] at hs
      have hof := h.formed.curator _ _ _ _ hsd hd hs
      have hky : y.cls.kind = .infos := by rw [Fields.kind_cls, hk]; rfl
      exact isTeacher_of_cls ((h.formed.shape _ _ _ hs).unique hky rfl (h.kinds p _ hp).1 (by simp)
        ⟨_, h.bare p b' y hhas⟩ hof.fields)
    | _ => rfl
  | none =>
    cases hs : w.stored g.kind oid with
    | none => exact .absent hc hs
    | some d =>
      have main : ∀ c, g.classOf w this = some c → d.IsOf c → (∀ y : Fields, y.cls = c → g.wants y = true) →
          g.Target w this oid := by
        intro c hcl hof hw
        obtain ⟨o, ho, hcls⟩ := ofDoc_of_isOf hs hof
        exact .stored hc hs hcl ho (hw _ hcls)
      cases g with
      | getTeacher => exact absurd rfl hg
      | getTeacherOwner => exact main _ rfl (h.formed.shape _ _ _ hs) fun _ _ => rfl
      | getStudentOwner => exact main _ rfl (h.formed.shape _ _ _ hs) fun _ _ => rfl
      | getStudentGroup => exact main _ rfl (h.formed.shape _ _ _ hs) fun _ _ => rfl
      | getScheduleGroup => exact main _ rfl (h.formed.shape _ _ _ hs) fun _ _ => rfl
      | getCurator =>
        have hx : x.kind = .groups := by cases x <;> simp [Getter.field, Fields.cls, DBClass.refs] at hf; rfl
        rw [hx] at hsd
        exact main _ rfl (h.formed.curator _ _ _ _ hsd hd hs) fun _ => isTeacher_of_cls
      | getAdditionalInfo =>
        obtain ⟨a, rfl⟩ : ∃ a, x = .account a := by
          cases x <;> simp [Getter.field, Fields.cls, DBClass.refs] at hf; exact ⟨_, rfl⟩
        rcases h.typed _ _ _ _ hsd hd hs with ⟨p, b', y, hp, hk, hid⟩ | ⟨a', c, ha', hcl, hof⟩
        · exact absurd hid (h.id_ne hc (fun _ _ _ _ hf => hf.elim) p b' y hp hk)
        · have hbare := (h.bare this b _ ht).symm.trans ha'
          obtain rfl : a' = { a with additionalInfo := .null } := by
            simpa [Fields.bare] using (Except.ok.inj hbare).symm
          exact main c (by rw [Getter.classOf_account ht.1]; exact hcl) hof fun _ _ => rfl

/-- Every getter of an object that exists returns. -/
theorem run_get (h : Traced w (fun _ => False) twin) {b : IFromDB} {x : Fields} (hg : g ≠ .getTeacher) (ht : w.Has this b x)
    (hf : g.field ∈ x.cls.refs) : ∃ r w', run (g.call this) w = .ok (r, w') := by
  obtain ⟨v, hv⟩ := Fields.mem_refs.mp hf
  have hkey : ∃ u, b.doc.get? g.key = some u := by
    obtain ⟨u, hu⟩ := (h.isOf ht).refs _ hf
    exact ⟨u, Getter.field_key hg ▸ hu⟩
  refine (Getter.returns_iff h.sound ht.1 ht.2 hv hkey).mpr ?_
  cases v with
  | uninit => exact (h.kinds this _ ht.1).2 rfl (h.given this _ g.field ht.1 hv)
  | null => exact fun oid hd => (h.target hg ht hf hd).loadable
  | «to» p =>
    obtain ⟨c, y, hp⟩ := h.closed this b x g.field p ht hv
    exact ⟨c, header_eq_ok.mpr ⟨y, hp⟩⟩

/-- What a getter returns exists and is stored. -/
theorem gotBy_some (h : Traced w (fun _ => False) twin) {p : ℕ} (hg : GotBy w g this (some p) w') :
    ∃ b x, w'.heap.get p = some ⟨some b, x⟩ ∧ b.isExist = true ∧ (w'.stored g.kind b.id).isSome := by
  have found : ∀ {v : World} {b : IFromDB} {x : Fields}, Traced v (fun _ => False) twin → v.Has p b x → x.kind = g.kind →
      (v.stored g.kind b.id).isSome := by
    intro v b x hv hp hk
    rw [← hk, hv.doc p b x hp]
    rfl
  cases hg with
  | settled ho hv hs =>
    cases hs with
    | held hp hb =>
      rename_i o b x
      exact ⟨b, x, hp, hb, found h ⟨hp, hb⟩ ((RefField.kind_of_admits (h.admits this o _ p _ ho hv hp)).trans g.field_kind)⟩
  | loaded ho hn hv hl hp hc h₁ =>
    rename_i b x oid o₁ o₂ w₁
    have t₁ : Traced w₁ (fun _ => False) twin := h.looked hl (fun x hx => Getter.kind_of_classOf hx) (Getter.classOf_ne g w this)
      (fun he => by cases g <;> cases he) fun _ _ _ _ hf => hf.elim
    obtain ⟨b₂, x₂, hg₂, hb₂, hk₂⟩ := t₁.sound.entry _ _ hl.mem
    obtain ⟨b₃, x₃, hg₃, hb₃⟩ := alive_put_setRef (f := g.field) (v := .to p) h₁ ⟨b₂, x₂, hg₂, hb₂⟩
    refine ⟨b₃, x₃, hg₃, hb₃, ?_⟩
    have hid : b₃.id = b₂.id := by
      have hq : Quiet never w₁ (w₁.put this (o₁.setRef g.field (.to p))) := .single (.put h₁ (.setRef _ _ _))
      have := idOf_of_is (fun o c => hq.is) ⟨b₂, x₂, hg₂, hb₂⟩
      simpa [Lib.Conf.idOf_of_get hg₂, Lib.Conf.idOf_of_get hg₃] using this
    rw [hid, Lib.Conf.stored_put]
    exact found t₁ ⟨hg₂, hb₂⟩ hk₂

/-- A getter yields null only when nothing stored is named. -/
theorem gotBy_none (h : Traced w (fun _ => False) twin) {b : IFromDB} {x : Fields} (hgt : g ≠ .getTeacher)
    (ht : w.Has this b x) (hf : g.field ∈ x.cls.refs) (hg : GotBy w g this none w') : w.Unnamed this g.field := by
  have hkey := Getter.field_key hgt
  cases hg with
  | settled ho hv hs =>
    rename_i o p
    obtain rfl := Option.some.inj (ht.1.symm.trans ho)
    refine h.lost this b x g.field p ht hv fun hp => ?_
    cases (hs.of_alive hp).1
  | absent ho hn hv hi =>
    obtain ⟨rfl, rfl⟩ : b = _ ∧ x = _ := by simpa using ht.1.symm.trans ho
    intro i hi'
    rw [docRef_of_get ho, hkey, hv, Option.bind_some, hi] at hi'
    cases hi'
  | missed ho hn hv hl hr =>
    obtain ⟨rfl, rfl⟩ : b = _ ∧ x = _ := by simpa using ht.1.symm.trans ho
    rename_i oid r₀
    intro i hi
    rw [docRef_of_get ho, hkey, hv, Option.bind_some, Bson.oid?_oid, Option.some.injEq] at hi
    subst hi
    rw [g.field_kind]
    cases h.target hgt ht hf hv with
    | absent hc hs => exact hs
    | cached hc hp hw =>
      cases hl with
      | hit hc' =>
        obtain rfl := Option.some.inj (hc'.symm.trans hc)
        obtain ⟨o', hp', hw'⟩ := hr _ rfl
        obtain rfl := Option.some.inj (hp.symm.trans hp')
        rw [hw] at hw'
        cases hw'
      | absent hc' => simp [hc] at hc'
      | loaded hc' => simp [hc] at hc'
    | stored hc hs hcl ho hw =>
      cases hl with
      | hit hc' => simp [hc] at hc'
      | absent hc' hs' => simp [hs, hcl] at hs'
      | loaded hc' hs' hcl' ho' =>
        obtain rfl := Option.some.inj (hs.symm.trans hs')
        obtain rfl := Option.some.inj (hcl.symm.trans hcl')
        obtain rfl := Except.ok.inj (ho.symm.trans ho')
        obtain ⟨o', hp', hw'⟩ := hr _ rfl
        obtain rfl : _ = o' := Option.some.inj ((Lib.Heap.get_push_next _ _).symm.trans hp')
        rw [Obj.own_fields, hw] at hw'
        cases hw'

end Traced

/-- After a getter its member designates no destroyed object. -/
theorem GotBy.closed {b : IFromDB} {x : Fields} {p : ℕ} (hg : GotBy w g this r w') (ht : w.Has this b x)
    (hp : w'.refOf this g.field = some (.to p)) : ∃ o, w'.heap.get p = some o := by
  have null : ∀ {v : World} {o : Obj}, v.heap.get this = some o → (∃ u, o.fields.ref g.field = some u) →
      (v.put this (o.setRef g.field .null)).refOf this g.field = some .null := by
    rintro v o ho ⟨u, hu⟩
    simp [Lib.Conf.refOf, Lib.Heap.get_set _ ho, Fields.ref_setRef hu]
  cases hg with
  | settled ho hv hs =>
    rename_i o q
    obtain rfl := Option.some.inj (ht.1.symm.trans ho)
    cases hs with
    | held hq hb =>
      rw [refOf_of_get ho, hv, Option.some.injEq, Pointer.to.injEq] at hp
      exact ⟨_, hp ▸ hq⟩
    | letGo hq hb hn ho' =>
      rename_i b₁ x₁ o₁
      have hv' : o₁.fields.ref g.field = some (.to q) := by
        rw [← refOf_of_get ho', refOf_own hq, refOf_of_get ho, hv]
      rw [null ho' ⟨_, hv'⟩] at hp
      cases hp
    | freed hq hb hn htq ho' =>
      have ho₁ : (w.free q).heap.get this = some ⟨some b, x⟩ := by
        rw [Lib.Conf.heap_free, Lib.Heap.get_free, if_neg htq, ho]
      obtain rfl := Option.some.inj (ho'.symm.trans ho)
      rw [null ho₁ ⟨_, hv⟩] at hp
      cases hp
  | absent ho hn => rw [refOf_of_get ho, hn] at hp; cases hp
  | missed ho hn hv hl hr => rw [refOf_of_get (hl.get ho), hn] at hp; cases hp
  | loaded ho hn hv hl hq hc h₁ =>
    rename_i b₁ x₁ oid q o₁ o₂ w₁
    obtain rfl := Option.some.inj ((hl.get ho).symm.trans h₁)
    have hto : p = q := by
      simpa [Lib.Conf.refOf, Lib.Heap.get_set _ h₁, Fields.ref_setRef hn] using hp.symm
    rw [hto, Lib.Conf.get_put h₁]
    split_ifs
    · exact ⟨_, rfl⟩
    · exact ⟨_, hq⟩

/-! ### Every run -/

/-- Every getter of a reference of an object that exists returns: an object that exists and is stored, or null when
the stored document of the object names no stored one; and no destroyed object is left in the member. -/
def GettersAnswer (w : World) : Prop :=
  ∀ (g : Getter) (this : ℕ) b x, g ≠ .getTeacher → w.heap.get this = some ⟨some b, x⟩ → b.isExist = true → g.field ∈ x.cls.refs →
    ∃ r w', run (g.call this) w = .ok (r, w') ∧
      (∀ p, r = some p → ∃ b' y, w'.heap.get p = some ⟨some b', y⟩ ∧ b'.isExist = true ∧
        (w'.stored g.kind b'.id).isSome) ∧
      (r = none → ∀ d i, w.stored x.kind b.id = some d → d.get? g.field.key = some (.oid i) →
        w.stored g.field.kind i = none) ∧
      ∀ p, w'.refOf this g.field = some (.to p) → ∃ o, w'.heap.get p = some o

/-- The getters answer after every run whose actions leave no pointer behind. -/
theorem gettersAnswer_of_run {db : Database} {as : List Action} {w : World} (hdb : db.Formed)
    (hr : Lib.Run Action.Step Action.traces (World.start db) as w) : GettersAnswer w := by
  have h := traced_of_run hdb hr
  intro g this b x hg ht hb hf
  have hhas : w.Has this b x := ⟨ht, hb⟩
  obtain ⟨r, w', hrun⟩ := h.run_get hg hhas hf
  have got := run_getter h.sound hrun
  refine ⟨r, w', hrun, ?_, ?_, fun p => got.closed hhas⟩
  · rintro p rfl
    exact h.gotBy_some got
  · rintro rfl d i hs hd
    obtain rfl : b.doc = d := Option.some.inj ((h.doc this b x hhas).symm.trans hs)
    exact h.gotBy_none hg hhas hf got i (by simp [docRef_of_get ht, hd])

/-- A teacher and the group the teacher is the curator of. -/
def oneGroup : Database :=
  (Database.empty.insert .infos [("FirstName", .string "first"), ("SecondName", .string "second"), ("Owner", nullValue),
    ("Faculty", .string "faculty"), ("LessonsTypes", .array [])]).insert .groups
      [("Name", .string "name"), ("Curator", .oid 0), ("Members", nullValue)]

theorem formed_oneGroup : oneGroup.Formed := by
  have hget : ∀ k o d, oneGroup.get? k o = some d →
      k = .groups ∧ o = 1 ∧ d = [("_id", .oid 1), ("Name", .string "name"), ("Curator", .oid 0), ("Members", nullValue)] ∨
      k = .infos ∧ o = 0 ∧ d = [("_id", .oid 0), ("FirstName", .string "first"), ("SecondName", .string "second"),
        ("Owner", nullValue), ("Faculty", .string "faculty"), ("LessonsTypes", .array [])] := by
    intro k o d h
    rw [oneGroup, Database.get?_insert, Database.get?_insert] at h
    split_ifs at h with h₁ h₂
    · obtain ⟨rfl, rfl⟩ := h₁
      exact .inl ⟨rfl, rfl, (Option.some.inj h).symm⟩
    · obtain ⟨rfl, rfl⟩ := h₂
      exact .inr ⟨rfl, rfl, (Option.some.inj h).symm⟩
    · cases h
  have hteacher : Doc.IsOf [("_id", .oid 0), ("FirstName", .string "first"), ("SecondName", .string "second"),
      ("Owner", nullValue), ("Faculty", .string "faculty"), ("LessonsTypes", .array [])] .teacherInfoDB :=
    ⟨⟨_, rfl⟩, by simp [DBClass.refs, RefField.key]⟩
  refine ⟨⟨?_, ?_, ?_⟩, ?_⟩
  · intro k o d h
    rcases hget k o d h with ⟨rfl, -, rfl⟩ | ⟨rfl, -, rfl⟩
    · exact ⟨⟨_, rfl⟩, by simp [DBClass.refs, RefField.key]⟩
    · exact .inr ⟨hteacher, by decide⟩
  · intro k o d key i h hi
    have hn : (World.start oneGroup).env.nextOid = 2 := rfl
    rw [hn]
    rcases hget k o d h with ⟨-, -, rfl⟩ | ⟨-, -, rfl⟩ <;>
      simp only [Doc.get?_cons, Doc.get?_nil, nullValue] at hi <;> (repeat' split_ifs at hi) <;>
      simp only [Option.some.injEq, Bson.oid.injEq, reduceCtorEq] at hi <;> subst hi <;> decide
  · intro o d i d' h hi h'
    rcases hget .groups o d h with ⟨-, -, rfl⟩ | ⟨hk, -⟩
    · rcases hget .infos i d' h' with ⟨hk, -⟩ | ⟨-, -, rfl⟩
      · cases hk
      · exact hteacher
    · cases hk
  · intro o d i d' h
    rcases hget .accounts o d h with ⟨hk, -⟩ | ⟨hk, -⟩ <;> cases hk

/-- The getters answer after the group was loaded and its curator was asked for. -/
theorem gettersAnswer_of_getCurator : ∃ w, w.refOf 0 .curator = some (.to 1) ∧ GettersAnswer w := by
  have hplay : (play [.getFromDB .groups 1 .admin, .get .getCurator 0] (World.start oneGroup)).any
      (fun w => w.refOf 0 .curator = some (.to 1)) = true := by decide
  obtain ⟨w, hw, hc⟩ := Option.any_eq_true .. |>.mp hplay
  obtain ⟨w₁, h₁, h₂⟩ := Option.bind_eq_some_iff.mp hw
  obtain ⟨w₂, h₃, hnil⟩ := Option.bind_eq_some_iff.mp h₂
  obtain rfl := Option.some.inj hnil
  have hnull : w₁.refOf 0 .curator = some .null := by
    have : ((Action.getFromDB .groups 1 .admin).next? (World.start oneGroup)).any
        (fun w => w.refOf 0 .curator = some .null) = true := by decide
    rw [h₁] at this
    exact of_decide_eq_true this
  refine ⟨w₂, of_decide_eq_true hc, gettersAnswer_of_run formed_oneGroup
    (.snoc (.snoc .nil ?_ (Action.step_of_next? h₁)) ?_ (Action.step_of_next? h₃))⟩
  · exact fun hk => by cases hk
  · exact Traced.releases_of_null hnull

/-- A getter does not count what it finds, so the object is destroyed while the group still points to it. -/
theorem not_gettersAnswer_of_every_run : ¬ ∀ db as w, db.Formed →
    Lib.Run Action.Step Lib.Free (World.start db) as w → GettersAnswer w := by
  intro h
  have hplay : (play [.getFromDB .groups 1 .admin, .get .getCurator 0, .delete .infos 0] (World.start oneGroup)).any
      (fun w => (w.heap.get 0).map (fun o => (o.fields, o.fromDB.map (·.isExist))) =
        some (.group { name := "name", curator := .to 1 }, some true) ∧ w.heap.get 1 = none) = true := by decide
  obtain ⟨w, hw, hc⟩ := Option.any_eq_true .. |>.mp hplay
  obtain ⟨hgrp, hfreed⟩ := of_decide_eq_true hc
  obtain ⟨⟨_ | b, x⟩, hg, he⟩ := Option.map_eq_some_iff.mp hgrp
  · simp at he
  simp only [Option.map_some, Prod.mk.injEq, Option.some.injEq] at he
  obtain ⟨rfl, hb⟩ := he
  obtain ⟨r, w', hrun, -⟩ := h _ _ w formed_oneGroup (run_of_play hw) .getCurator 0 b _ (by simp) hg hb
    (by simp [Fields.cls, DBClass.refs, Getter.field])
  -- the getter reads the object that was destroyed
  simp only [Getter.call, GroupDB.getCurator, getRef, run_bind_iff, run_obj_iff] at hrun
  obtain ⟨o, _, ⟨ho, rfl⟩, hrun⟩ := hrun
  obtain rfl := Option.some.inj (hg.symm.trans ho)
  simp only [Fields.ref, settle, run_bind_iff, run_fromDB_iff] at hrun
  obtain ⟨b', _, ⟨hh, -⟩, -⟩ := hrun
  obtain ⟨y, hy⟩ := header_eq_ok.mp hh
  rw [hfreed] at hy
  cases hy

end Cbt
