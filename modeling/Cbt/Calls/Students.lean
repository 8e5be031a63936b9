import Cbt.Caches.Targets
import Cbt.Effects.Storing
import Cbt.Windows.Acts

/-! The members of a group and the students its getter finds. The loop of
`getStudents` asks the cache for each listed id and loads what is stored, so what
it finds are the students cached under the listed ids afterwards, and an id finds
a student afterwards exactly when it did before. -/

namespace Cbt

open Lib.Command (run_bind_iff run_pure_iff)

variable {w w₁ w₂ w' : World} {p : ℕ} {b : IFromDB} {x : Fields}

/-- The ids a document lists as members. -/
def Doc.MembersAre (d : Doc) (ids : List Oid) : Prop :=
  d.get? "Members" = some (.array (ids.map .oid)) ∨ ids = [] ∧ ∃ v, d.get? "Members" = some v ∧ ∀ vs, v ≠ .array vs

/-- The students a document lists, all cached; of the other members none is stored. -/
def Doc.Lists (d : Doc) (w : World) (l : List ℕ) : Prop :=
  ∃ ids, d.MembersAre ids ∧ (∀ i ∈ ids, w.cached .infos i = none → w.stored .infos i = none) ∧ w.cachedStudents ids = l

/-! ### One id -/

/-- `getStudents` finds a student under an id. -/
def Lib.Conf.findsStudent (w : World) (i : Oid) : Bool :=
  match w.cached .infos i with
  | some q => ((w.heap.get q).map (·.fields.isStudent)).getD false
  | none => (w.stored .infos i).isSome

theorem isStudent_of_ofDoc {d : Doc} {o : Obj} (h : DBClass.studentInfoDB.ofDoc d = .ok o) : o.fields.isStudent = true := by
  obtain ⟨y, j, hy, -, rfl⟩ := ofDoc_eq_ok.mp h
  have hcls := DBClass.cls_fields hy
  cases y <;> first | rfl | cases hcls

theorem findsStudent_of_looked {i : Oid} {r : Option ℕ} (hw : Sound w)
    (h : Looked w .infos i (some .studentInfoDB) r w₁) : w₁.findsStudent = w.findsStudent := by
  cases h with
  | hit | absent => rfl
  | @loaded _ d _ hc hs hcl ho =>
    obtain rfl := Option.some.inj hcl
    have hstud := isStudent_of_ofDoc ho
    obtain ⟨y, j, hy, hj, rfl⟩ := ofDoc_eq_ok.mp ho
    obtain rfl : i = j := by simpa [hj] using ((w.env.coll .infos).ids i _ hs).symm
    funext k
    have hload : (w.load .infos (Obj.own 1 ⟨some { doc := d, id := i }, y⟩)).cached .infos k = _ :=
      cached_load hw (b := IFromDB.own 1 { doc := d, id := i }) y hc .infos k
    unfold Lib.Conf.findsStudent
    rw [hload]
    by_cases hk : k = i
    · subst hk
      simpa [hs, hc, Obj.own] using hstud
    · simp only [true_and, IFromDB.id_own, hk, if_false]
      cases hck : w.cached .infos k with
      | none => rfl
      | some q =>
        obtain ⟨c, z, hq, -⟩ := hw.entry _ _ (Lib.Conf.cached_mem hck)
        have hq' : (w.load .infos (Obj.own 1 ⟨some { doc := d, id := i }, y⟩)).heap.get q = some ⟨some c, z⟩ :=
          Lib.Heap.get_push_of_some _ hq
        simp only [hq, hq']

theorem findsStudent_assignStudents {c : Option IFromDB} {g : Group} (h : w.heap.get p = some ⟨c, .group g⟩)
    (l : List ℕ) : (w.put p ⟨c, .group { g with students := l }⟩).findsStudent = w.findsStudent := by
  funext i
  unfold Lib.Conf.findsStudent
  rw [cached_assignStudents h]
  cases w.cached .infos i with
  | none => rfl
  | some q =>
    simp only [Lib.Conf.get_put h]
    split_ifs with hq
    · subst hq
      simp [h, Fields.isStudent]
    · rfl

/-! ### The loop -/

/-- What the loop of `getStudents` lists: the students found, in order; one that had to be loaded is a new object. -/
structure Loaded (w : World) (p : ℕ) (b : IFromDB) (g : Group) (ids : List Oid) (l : List ℕ) (w' : World) : Prop where
  grown : Extends (· = p) w w'
  get : w'.heap.get p = some ⟨some b, .group { g with students := g.students ++ l }⟩
  finds : w'.findsStudent = w.findsStudent
  all : ∀ i ∈ ids, w'.cached .infos i = none → w.stored .infos i = none
  listed : w'.cachedStudents ids = l
  new : ∀ i ∈ ids, w.cached .infos i = none → w.stored .infos i ≠ none → ∃ q ∈ l, w.heap.next ≤ q

theorem cachedStudents_skip {i : Oid} {ids : List Oid} (h : w.findsStudent i = false) :
    w.cachedStudents (i :: ids) = w.cachedStudents ids := by
  unfold Lib.Conf.findsStudent at h
  cases hc : w.cached .infos i with
  | none => simp [Lib.Conf.cachedStudents, hc]
  | some q =>
    simp only [hc] at h
    simp [Lib.Conf.cachedStudents, hc, Option.filter, h]

theorem loaded_of_run {g : Group} {vs : List Element} {u : Unit} (hw : Sound w)
    (hg : w.heap.get p = some ⟨some b, .group g⟩) (hr : run (GroupDB.loadStudents p vs) w = .ok (u, w')) :
    ∃ ids l, vs = ids.map .oid ∧ Loaded w p b g ids l w' := by
  induction vs generalizing w g with
  | nil =>
    obtain ⟨-, rfl⟩ := (run_pure_iff _).mp hr
    exact ⟨[], [], rfl, .refl hw, by simpa using hg, rfl, by simp, rfl, by simp⟩
  | cons v vs ih =>
    obtain ⟨i, r, w₁, rfl, hlook, hrest⟩ := run_loadStudents_cons_iff.mp hr
    clear hr
    have hl := (run_infosGetFromDB_iff (hw.live .infos)).mp hlook
    have hf₁ := findsStudent_of_looked hw hl
    have hext : Extends (· = p) w w₁ := .looked hw hl fun c hc => by
      obtain rfl := Option.some.inj hc
      simp [DBClass.kind]
    rcases hrest with ⟨hno, hr⟩ | ⟨q, c, x, rfl, hq, hx, hr⟩
    · -- no student is found, and nothing was loaded
      obtain ⟨rfl, hfind, hstored⟩ : w₁ = w ∧ w.findsStudent i = false ∧
          (w.cached .infos i = none → w.stored .infos i = none) := by
        cases hl with
        | hit hc =>
          rcases hno with hno | ⟨q, o, he, ho, hs⟩
          · cases hno
          · obtain rfl := Option.some.inj he
            exact ⟨rfl, by simp [Lib.Conf.findsStudent, hc, ho, hs], fun hn => by simp [hc] at hn⟩
        | absent hc hs =>
          have hs : w.stored .infos i = none := hs.resolve_right (by simp [InfosController.classOf])
          exact ⟨rfl, by simp [Lib.Conf.findsStudent, hc, hs], fun _ => hs⟩
        | loaded hc hs hcl ho =>
          obtain rfl := Option.some.inj hcl
          rcases hno with hno | ⟨q, o, he, hq, hs⟩
          · cases hno
          · obtain rfl := Option.some.inj he
            obtain rfl := Option.some.inj ((Lib.Heap.get_push_next _ _).symm.trans hq)
            rw [Obj.own_fields, isStudent_of_ofDoc ho] at hs
            cases hs
      obtain ⟨ids, l, rfl, h⟩ := ih hw hg hr
      refine ⟨i :: ids, l, rfl, h.grown, h.get, h.finds, ?_, ?_, ?_⟩
      · rw [List.forall_mem_cons]
        refine ⟨fun hn => hstored ?_, h.all⟩
        cases hc : w₁.cached .infos i with
        | none => rfl
        | some q => simp [h.grown.cached _ _ _ hc] at hn
      · rw [cachedStudents_skip (by rw [h.finds, hfind]), h.listed]
      · rw [List.forall_mem_cons]
        exact ⟨fun hc hs => absurd (hstored hc) hs, h.new⟩
    · have hg₁ := hl.get hg
      obtain ⟨c', x', hq', hc⟩ := hl.alive hw rfl
      obtain ⟨rfl, rfl⟩ : c = c' ∧ x = x' := by simpa [hq] using hq'
      rcases hr with ⟨hn, -⟩ | ⟨-, b', g', hg', hr⟩
      · simp [hc] at hn
      obtain ⟨rfl, rfl⟩ : some b = b' ∧ g = g' := by simpa [hg₁] using hg'
      have hcase : w₁.cached .infos i = some q ∧ (w₁ = w ∨ q = w.heap.next) := by
        cases hl with
        | hit hc => exact ⟨hc, .inl rfl⟩
        | loaded hc hs hcl ho =>
          refine ⟨?_, .inr rfl⟩
          obtain ⟨y, j, -, hj, rfl⟩ := ofDoc_eq_ok.mp ho
          obtain rfl : i = j := by simpa [hj] using ((w.env.coll .infos).ids i _ hs).symm
          exact (cached_load hw (b := IFromDB.own 1 { doc := _, id := i }) y hc .infos i).trans (if_pos ⟨rfl, rfl⟩)
      set w₂ := w₁.put p ⟨some b, .group { g with students := g.students ++ [q] }⟩ with hw₂
      have hput : Extends (· = p) w₁ w₂ := .put hext.sound hg₁ rfl rfl (.inl rfl)
      have hg₂ : w₂.heap.get p = some ⟨some b, .group { g with students := g.students ++ [q] }⟩ := by
        rw [hw₂, Lib.Conf.get_put hg₁, if_pos rfl]
      obtain ⟨ids, l, rfl, h⟩ := ih hput.sound hg₂ hr
      have hcq : w'.cached .infos i = some q := (hput.trans h.grown).cached _ _ _ hcase.1
      refine ⟨i :: ids, q :: l, rfl, hext.trans (hput.trans h.grown), ?_, ?_, ?_, ?_, ?_⟩
      · rw [h.get]
        simp
      · rw [h.finds, hw₂, findsStudent_assignStudents hg₁, hf₁]
      · rw [List.forall_mem_cons]
        exact ⟨fun hn => by simp [hcq] at hn, (hext.trans hput).stored ▸ h.all⟩
      · obtain ⟨c', y, hq', -, hy⟩ := (hput.trans h.grown).same q c x hq
        rw [cachedStudents_cons hcq hq', if_pos (by rw [isStudent_of_cls hy, hx]), h.listed]
      · intro j hj hcj hsj
        rcases hcase with ⟨hci, rfl | rfl⟩
        · have hjm : j ∈ ids := (List.mem_cons.mp hj).resolve_left (by rintro rfl; simp [hci] at hcj)
          obtain ⟨r, hr, hle⟩ := h.new j hjm (by rw [hw₂, cached_assignStudents hg₁, hcj]) hsj
          exact ⟨r, List.mem_cons_of_mem _ hr, by simpa [hw₂] using hle⟩
        · exact ⟨_, List.mem_cons_self, le_rfl⟩

/-- The loop returns when every member that is stored is cached or the record of a student. -/
theorem exists_loadStudents_of {g : Group} {ids : List Oid} (hw : Sound w) (hg : w.heap.get p = some ⟨some b, .group g⟩)
    (hids : ∀ i ∈ ids, w.cached .infos i = none → ∀ d, w.stored .infos i = some d →
      ∃ o, DBClass.studentInfoDB.ofDoc d = .ok o) :
    ∃ w', run (GroupDB.loadStudents p (ids.map .oid)) w = .ok ((), w') := by
  induction ids generalizing w g with
  | nil => exact ⟨w, rfl⟩
  | cons i ids ih =>
    have later {v : World} (hv : Extends (· = p) w v) : ∀ j ∈ ids, v.cached .infos j = none →
        ∀ d, v.stored .infos j = some d → ∃ o, DBClass.studentInfoDB.ofDoc d = .ok o := by
      intro j hj hn d hd
      refine hids j (List.mem_cons_of_mem _ hj) ?_ d (hv.stored ▸ hd)
      cases hc : w.cached .infos j with
      | none => rfl
      | some q => simp [hv.cached _ _ _ hc] at hn
    obtain ⟨r, w₁, hl⟩ : ∃ r w₁, Looked w .infos i (some .studentInfoDB) r w₁ := by
      cases hc : w.cached .infos i with
      | some q => exact ⟨some q, w, .hit hc⟩
      | none =>
        cases hs : w.stored .infos i with
        | none => exact ⟨none, w, .absent hc (.inl hs)⟩
        | some d =>
          obtain ⟨o, ho⟩ := hids i List.mem_cons_self hc d hs
          exact ⟨_, _, .loaded hc hs rfl ho⟩
    have hlook : run (InfosController.getFromDB i .student) w = .ok (r, w₁) :=
      (run_infosGetFromDB_iff (hw.live .infos)).mpr hl
    have hext : Extends (· = p) w w₁ := .looked hw hl fun c hc => by
      obtain rfl := Option.some.inj hc
      simp [DBClass.kind]
    have hg₁ := hl.get hg
    cases r with
    | none =>
      obtain ⟨w', h⟩ := ih hext.sound hg₁ (later hext)
      exact ⟨w', run_loadStudents_cons_iff.mpr ⟨i, none, w₁, rfl, hlook, .inl ⟨.inl rfl, h⟩⟩⟩
    | some q =>
      obtain ⟨c, y, hq, hc⟩ := hl.alive hw rfl
      cases hs : y.isStudent with
      | false =>
        obtain ⟨w', h⟩ := ih hext.sound hg₁ (later hext)
        exact ⟨w', run_loadStudents_cons_iff.mpr ⟨i, some q, w₁, rfl, hlook, .inl ⟨.inr ⟨q, _, rfl, hq, hs⟩, h⟩⟩⟩
      | true =>
        have hput : Extends (· = p) w₁ (w₁.put p ⟨some b, .group { g with students := g.students ++ [q] }⟩) :=
          .put hext.sound hg₁ rfl rfl (.inl rfl)
        obtain ⟨w', h⟩ := ih hput.sound (g := { g with students := g.students ++ [q] })
          (by rw [Lib.Conf.get_put hg₁, if_pos rfl]) (later (hext.trans hput))
        exact ⟨w', run_loadStudents_cons_iff.mpr ⟨i, some q, w₁, rfl, hlook, .inr ⟨q, c, y, rfl, hq, hs,
          .inr ⟨hc, some b, g, hg₁, h⟩⟩⟩⟩

/-- The loop returns when every member is cached or not stored. -/
theorem exists_loadStudents {g : Group} {ids : List Oid} (hw : Sound w) (hg : w.heap.get p = some ⟨some b, .group g⟩)
    (hc : ∀ i ∈ ids, w.cached .infos i = none → w.stored .infos i = none) :
    ∃ w', run (GroupDB.loadStudents p (ids.map .oid)) w = .ok ((), w') :=
  exists_loadStudents_of hw hg fun i hi hn d hd => by simp [hc i hi hn] at hd

/-- What can be loaded after a look-up could be loaded before. -/
theorem Looked.loadable {k : Kind} {i oid : Oid} {c? : Option DBClass} {r : Option ℕ} (hw : Sound w)
    (h : Looked w k i c? r w₁) (hl : w₁.Loadable k c? oid) : w.Loadable k c? oid := by
  cases h with
  | hit | absent => exact hl
  | loaded hc hs hcl ho =>
    intro hn d hd c hc'
    obtain ⟨y, j, -, hj, rfl⟩ := id (ofDoc_eq_ok.mp ho)
    obtain rfl : i = j := by simpa [hj] using ((w.env.coll k).ids i _ hs).symm
    by_cases hi : oid = i
    · subst hi
      obtain rfl := Option.some.inj (hd.symm.trans hs)
      obtain rfl := Option.some.inj (hc'.symm.trans hcl)
      exact ⟨_, ho⟩
    · refine hl ?_ d hd c hc'
      refine (cached_load hw (b := IFromDB.own 1 { doc := _, id := i }) y hc k oid).trans ?_
      rw [if_neg (by simpa using hi), hn]

/-- The loop returns only if the elements are ids and what they find can be loaded. -/
theorem loadable_of_run {g : Group} {vs : List Element} {u : Unit} (hw : Sound w)
    (hg : w.heap.get p = some ⟨some b, .group g⟩) (hr : run (GroupDB.loadStudents p vs) w = .ok (u, w')) :
    ∃ ids : List Oid, vs = ids.map .oid ∧ ∀ i ∈ ids, w.Loadable .infos (some .studentInfoDB) i := by
  induction vs generalizing w g with
  | nil => exact ⟨[], rfl, by simp⟩
  | cons v vs ih =>
    obtain ⟨i, r, w₁, rfl, hlook, hrest⟩ := run_loadStudents_cons_iff.mp hr
    have hl : Looked w .infos i (some .studentInfoDB) r w₁ := (run_infosGetFromDB_iff (hw.live .infos)).mp hlook
    have hext : Extends (· = p) w w₁ := .looked hw hl fun c hc => by
      obtain rfl := Option.some.inj hc
      simp [DBClass.kind]
    have hg₁ := hl.get hg
    obtain ⟨ids, rfl, hids⟩ : ∃ ids : List Oid, vs = ids.map .oid ∧
        ∀ j ∈ ids, w₁.Loadable .infos (some .studentInfoDB) j := by
      rcases hrest with ⟨-, hr⟩ | ⟨q, c, x, -, -, -, ⟨-, hr⟩ | ⟨-, b', g', hg', hr⟩⟩
      · exact ih hext.sound hg₁ hr
      · exact ih hext.sound hg₁ hr
      · obtain ⟨rfl, rfl⟩ : some b = b' ∧ g = g' := by simpa [hg₁] using hg'
        have hput : Extends (· = p) w₁ (w₁.put p ⟨some b, .group { g with students := g.students ++ [q] }⟩) :=
          .put hext.sound hg₁ rfl rfl (.inl rfl)
        obtain ⟨ids, hids, hall⟩ := ih hput.sound (by rw [Lib.Conf.get_put hg₁, if_pos rfl]) hr
        refine ⟨ids, hids, fun j hj hn => hall j hj ?_⟩
        rw [cached_assignStudents hg₁, hn]
    refine ⟨i :: ids, rfl, ?_⟩
    rw [List.forall_mem_cons]
    exact ⟨exists_looked_iff.mp ⟨_, _, hl⟩, fun j hj => hl.loadable hw (hids j hj)⟩

theorem filterMap_oid (ids : List Oid) : (ids.map Element.oid).filterMap Element.oid? = ids := by
  simp [List.filterMap_map, Element.oid?, Function.comp_def]

/-- `getStudents` answers with students that were there before exactly when its document lists them. -/
theorem lists_iff {g : Group} {l : List ℕ} (hw : Sound w) (hg : w.heap.get p = some ⟨some b, .group g⟩)
    (hl : ∀ q ∈ l, q < w.heap.next) : (∃ w', run (GroupDB.getStudents p) w = .ok (l, w')) ↔ b.doc.Lists w l := by
  set w₀ := w.put p ⟨some b, .group { g with students := [] }⟩ with hw₀
  have hput : Quiet never w w₀ := quiet_assignStudents hg _
  have hg₀ : w₀.heap.get p = some ⟨some b, .group { g with students := [] }⟩ := by
    rw [hw₀, Lib.Conf.get_put hg, if_pos rfl]
  have hcached : w₀.cached = w.cached := cached_assignStudents hg []
  have hend {ids : List Oid} {w' : World} (hc : ∀ i ∈ ids, w.cached .infos i = none → w.stored .infos i = none)
      (hr : run (GroupDB.loadStudents p (ids.map .oid)) w₀ = .ok ((), w')) :
      w'.heap.get p = some ⟨some b, .group { g with students := w.cachedStudents ids }⟩ := by
    rw [loadStudents_of_cached (hput.sound hw) hg₀ (by rw [filterMap_oid, hcached]; exact hc) hr,
      Lib.Conf.get_put hg₀, if_pos rfl, filterMap_oid, cachedStudents_assignStudents hg]
    rfl
  rw [show (∃ w', run (GroupDB.getStudents p) w = .ok (l, w')) ↔ _ from exists_congr fun _ => run_getStudents_iff]
  constructor
  · rintro ⟨w', b', g', v, hg', hv, hr, c, g₁, hg₁, rfl⟩
    obtain ⟨rfl, rfl⟩ : b = b' ∧ g = g' := by simpa [hg] using hg'
    rcases hr with ⟨vs, rfl, hr⟩ | ⟨hno, rfl⟩
    · obtain ⟨ids, l, rfl, hld⟩ := loaded_of_run (hput.sound hw) hg₀ hr
      obtain ⟨-, rfl⟩ : c = some b ∧ g₁ = { g with students := l } := by simpa [hg₁] using hld.get
      have hc : ∀ i ∈ ids, w.cached .infos i = none → w.stored .infos i = none := by
        intro i hi hn
        by_contra hs
        obtain ⟨q, hq, hle⟩ := hld.new i hi (by rw [hcached, hn]) hs
        have hlt := hl q hq
        have hnext := hput.next_le
        omega
      have he := hend hc hr
      rw [hg₁] at he
      simp only [Option.some.injEq, Obj.mk.injEq, Fields.group.injEq, Group.mk.injEq, true_and, and_true] at he
      exact ⟨ids, .inl hv, hc, by simpa using he.2.symm⟩
    · rw [hg₀] at hg₁
      obtain ⟨-, rfl⟩ : some b = c ∧ { g with students := [] } = g₁ := by simpa using hg₁
      exact ⟨[], .inr ⟨rfl, v, hv, hno⟩, by simp, rfl⟩
  · rintro ⟨ids, hv | ⟨rfl, v, hv, hno⟩, hc, rfl⟩
    · obtain ⟨w', hr⟩ := exists_loadStudents (hput.sound hw) hg₀ (by rw [hcached]; exact hc)
      exact ⟨w', b, g, _, hg, hv, .inl ⟨_, rfl, hr⟩, _, _, hend hc hr, rfl⟩
    · exact ⟨w₀, b, g, v, hg, hv, .inr ⟨hno, rfl⟩, _, _, hg₀, rfl⟩

/-- Objects that exist are written by their ids. -/
theorem existingIds_of_alive {l : List ℕ} (hl : ∀ q ∈ l, w.Alive q) :
    ∃ ids, existingIds w.heap l = .ok ids ∧ l.map w.idOf = ids.map some := by
  induction l with
  | nil => exact ⟨[], rfl, rfl⟩
  | cons q l ih =>
    rw [List.forall_mem_cons] at hl
    obtain ⟨c, y, hq, hc⟩ := hl.1
    obtain ⟨ids, hids, hmap⟩ := ih hl.2
    refine ⟨c.id :: ids, ?_, ?_⟩
    · simp [existingIds, header_eq_ok.mpr ⟨y, hq⟩, hids, hc]
    · rw [List.map_cons, List.map_cons, hmap, Lib.Conf.idOf_of_get hq]

/-- Some ids find the students that have them exactly when these are the cached ones. -/
theorem cachedStudents_eq_iff {ids : List Oid} {l : List ℕ} (hl : l.map w.idOf = ids.map some)
    (hs : ∀ q ∈ l, ∃ c s, w.heap.get q = some ⟨c, .student s⟩) :
    (∀ q ∈ l, ∃ i, w.idOf q = some i ∧ w.cached .infos i = some q) ↔
      ((∀ i ∈ ids, w.cached .infos i = none → w.stored .infos i = none) ∧ w.cachedStudents ids = l) := by
  have hlen : ∀ ids : List Oid, (w.cachedStudents ids).length ≤ ids.length := fun ids => List.length_filterMap_le ..
  induction l generalizing ids with
  | nil =>
    obtain rfl : ids = [] := by simpa using hl.symm
    simp [Lib.Conf.cachedStudents]
  | cons q l ih =>
    obtain ⟨i, ids, rfl⟩ : ∃ i ids', ids = i :: ids' := by
      cases ids with
      | nil => simp at hl
      | cons i ids => exact ⟨i, ids, rfl⟩
    simp only [List.map_cons, List.cons.injEq] at hl
    obtain ⟨hq, hl⟩ := hl
    rw [List.forall_mem_cons] at hs ⊢
    obtain ⟨⟨c, s, hqs⟩, hs⟩ := hs
    have hlength : l.length = ids.length := by simpa using congrArg List.length hl
    refine (and_congr_right' (ih hl hs)).trans (Iff.symm ⟨?_, ?_⟩)
    · rintro ⟨hc, he⟩
      rw [List.forall_mem_cons] at hc
      have hskip : w.cachedStudents (i :: ids) ≠ w.cachedStudents ids := by
        intro hsame
        have := hlen ids
        rw [← hsame, he] at this
        simp only [List.length_cons] at this
        omega
      cases hci : w.cached .infos i with
      | none => exact absurd (by simp [Lib.Conf.cachedStudents, hci]) hskip
      | some r =>
        by_cases hr : ((w.heap.get r).map (·.fields.isStudent)).getD false = true
        · have hcons : w.cachedStudents (i :: ids) = r :: w.cachedStudents ids := by
            simp [Lib.Conf.cachedStudents, hci, Option.filter, hr]
          rw [hcons, List.cons.injEq] at he
          exact ⟨⟨i, hq, he.1 ▸ hci⟩, hc.2, he.2⟩
        · exact absurd (by simp [Lib.Conf.cachedStudents, hci, Option.filter, hr]) hskip
    · rintro ⟨⟨j, hj, hcj⟩, hc, he⟩
      obtain rfl : i = j := by simpa [hq] using hj
      rw [List.forall_mem_cons]
      refine ⟨⟨fun hn => by simp [hcj] at hn, hc⟩, ?_⟩
      rw [cachedStudents_cons hcj hqs, if_pos (by rfl), he]

/-! ### What the getter leaves -/

/-- What `getStudents` leaves: the students it found, which its document lists, are the group's. -/
structure GotStudents (w : World) (p : ℕ) (b : IFromDB) (g : Group) (ids : List Oid) (l : List ℕ) (w' : World) : Prop where
  members : b.doc.MembersAre ids
  grown : Extends (· = p) w w'
  get : w'.heap.get p = some ⟨some b, .group { g with students := l }⟩
  finds : w'.findsStudent = w.findsStudent
  all : ∀ i ∈ ids, w'.cached .infos i = none → w'.stored .infos i = none
  listed : w'.cachedStudents ids = l

theorem got_students {g : Group} {l : List ℕ} (hw : Sound w) (hg : w.heap.get p = some ⟨some b, .group g⟩)
    (hr : run (GroupDB.getStudents p) w = .ok (l, w')) : ∃ ids, GotStudents w p b g ids l w' := by
  obtain ⟨b', g', v, hg', hv, hr, c, g₁, hg₁, rfl⟩ := run_getStudents_iff.mp hr
  obtain ⟨rfl, rfl⟩ : b = b' ∧ g = g' := by simpa [hg] using hg'
  have hput : Extends (· = p) w (w.put p ⟨some b, .group { g with students := [] }⟩) := .put hw hg rfl rfl (.inl rfl)
  have hg₀ : (w.put p ⟨some b, .group { g with students := [] }⟩).heap.get p =
      some ⟨some b, .group { g with students := [] }⟩ := by rw [Lib.Conf.get_put hg, if_pos rfl]
  rcases hr with ⟨vs, rfl, hr⟩ | ⟨hno, rfl⟩
  · obtain ⟨ids, l, rfl, h⟩ := loaded_of_run hput.sound hg₀ hr
    obtain ⟨-, rfl⟩ : c = some b ∧ g₁ = { g with students := l } := by simpa [hg₁] using h.get
    refine ⟨ids, .inl hv, hput.trans h.grown, h.get, ?_, h.grown.stored ▸ h.all, h.listed⟩
    rw [h.finds, findsStudent_assignStudents hg]
  · rw [hg₀] at hg₁
    obtain ⟨-, rfl⟩ : some b = c ∧ { g with students := [] } = g₁ := by simpa using hg₁
    exact ⟨[], .inr ⟨rfl, v, hv, hno⟩, hput, hg₀, findsStudent_assignStudents hg [], by simp, rfl⟩

namespace GotStudents

variable {g : Group} {ids : List Oid} {l : List ℕ}

theorem cached (h : GotStudents w p b g ids l w') {q : ℕ} (hq : q ∈ l) : ∃ i ∈ ids, w'.cached .infos i = some q ∧
    ∃ c s, w'.heap.get q = some ⟨some c, .student s⟩ ∧ c.isExist = true ∧ w'.findsStudent i = true := by
  rw [← h.listed] at hq
  obtain ⟨i, hi, hf⟩ := List.mem_filterMap.mp hq
  obtain ⟨hc, hs⟩ := Option.filter_eq_some_iff.mp hf
  obtain ⟨c, y, hg, hb, -⟩ := h.grown.sound.entry _ _ (Lib.Conf.cached_mem hc)
  refine ⟨i, hi, hc, ?_⟩
  cases y <;> first
    | exact ⟨c, _, hg, hb, by simp [Lib.Conf.findsStudent, hc, hg, Fields.isStudent]⟩
    | simp [hg, Fields.isStudent] at hs

theorem live (h : GotStudents w p b g ids l w') {q : ℕ} (hq : q ∈ l) : w'.Alive q := by
  obtain ⟨i, -, -, c, s, hg, hc, -⟩ := h.cached hq
  exact ⟨c, _, hg, hc⟩

/-- The students found have the ids under which students are found. -/
theorem ids_eq (h : GotStudents w p b g ids l w') : l.map w'.idOf = (ids.filter w.findsStudent).map some := by
  rw [← h.listed, ← h.finds]
  have hall := h.all
  clear h
  induction ids with
  | nil => rfl
  | cons i ids ih =>
    rw [List.forall_mem_cons] at hall
    cases hf : w'.findsStudent i with
    | false => rw [cachedStudents_skip hf, List.filter_cons_of_neg (by simp [hf]), ih hall.2]
    | true =>
      cases hc : w'.cached .infos i with
      | none => simp [Lib.Conf.findsStudent, hc, hall.1 hc] at hf
      | some q =>
        have hstud : ((w'.heap.get q).map (·.fields.isStudent)).getD false = true := by
          simpa [Lib.Conf.findsStudent, hc] using hf
        have hcons : w'.cachedStudents (i :: ids) = q :: w'.cachedStudents ids := by
          simp [Lib.Conf.cachedStudents, hc, Option.filter, hstud]
        rw [hcons, List.map_cons, Lib.Conf.cached_idOf hc, List.filter_cons_of_pos hf, List.map_cons, ih hall.2]

end GotStudents

end Cbt
