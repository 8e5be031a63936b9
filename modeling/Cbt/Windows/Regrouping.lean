import Cbt.Windows.Showing

/-! A change of groups. The tables of accounts show what other entities have: when only
groups are made, named or given a curator, what could be drawn still can be. -/

namespace Cbt

variable {κ : Oid → Option DBClass} {w w' : World} {k : Kind} {d d' : Doc} {i : Oid} {f : RefField} {c? : Option DBClass}
  {v : Pointer} {x x' : Fields} {p : ℕ}

/-- Only groups change, and the counts of objects; a group that is new is cached. -/
structure Regroups (w w' : World) : Prop where
  cached : ∀ k i, k ≠ .groups → w'.cached k i = w.cached k i
  cash : ∀ k, k ≠ .groups → w'.cash k = w.cash k
  stored : ∀ k i, k ≠ .groups → w'.stored k i = w.stored k i
  missing : ∀ i, w'.cached .groups i = none → w.cached .groups i = none ∧ w'.stored .groups i = w.stored .groups i
  back : ∀ p b' x', p < w.heap.next → w'.heap.get p = some ⟨some b', x'⟩ → ∃ b x, w.heap.get p = some ⟨some b, x⟩ ∧
    b'.core = b.core ∧ (x.kind ≠ .groups ∨ x'.kind ≠ .groups → x' = x)
  forth : ∀ p b x, w.heap.get p = some ⟨some b, x⟩ → ∃ b' x', w'.heap.get p = some ⟨some b', x'⟩
  next_le : w.heap.next ≤ w'.heap.next

namespace Regroups

/-- An object is overwritten that keeps its document, and what it has unless it is a group. -/
theorem put {b b' : IFromDB} (hp : w.heap.get p = some ⟨some b, x⟩) (hc : b'.core = b.core)
    (hx : x' = x ∨ x.kind = .groups ∧ x'.kind = .groups) : Regroups w (w.put p ⟨some b', x'⟩) := by
  refine ⟨fun k i _ => by rw [cached_put hp hc], fun _ _ => rfl, fun _ _ _ => rfl, fun i hn => ⟨by rwa [cached_put hp hc] at hn, rfl⟩,
    fun q c' y' hlt hq => ?_, fun q c y hq => exists_get_put hp ⟨c, y, hq⟩, by simp⟩
  rw [Lib.Conf.get_put hp] at hq
  split_ifs at hq with he
  · obtain ⟨rfl, rfl⟩ : b' = c' ∧ x' = y' := by simpa using hq
    subst he
    refine ⟨b, x, hp, hc, fun hk => hx.resolve_right fun hg => ?_⟩
    exact hk.elim (fun h => h hg.1) fun h => h hg.2
  · exact ⟨c', y', hq, rfl, fun _ => rfl⟩

theorem trans {w₁ : World} (h : Regroups w w₁) (h' : Regroups w₁ w') : Regroups w w' where
  cached k i hk := (h'.cached k i hk).trans (h.cached k i hk)
  cash k hk := (h'.cash k hk).trans (h.cash k hk)
  stored k i hk := (h'.stored k i hk).trans (h.stored k i hk)
  missing i hn := by
    obtain ⟨hn₁, hs₁⟩ := h'.missing i hn
    obtain ⟨hn₀, hs₀⟩ := h.missing i hn₁
    exact ⟨hn₀, hs₁.trans hs₀⟩
  back p b₂ x₂ hlt hp := by
    obtain ⟨b₁, x₁, hp₁, hc₁, hx₁⟩ := h'.back p b₂ x₂ (hlt.trans_le h.next_le) hp
    obtain ⟨b, x, hp, hc, hx⟩ := h.back p b₁ x₁ hlt hp₁
    refine ⟨b, x, hp, hc₁.trans hc, fun hk => ?_⟩
    rcases hk with hk | hk
    · obtain rfl := hx (.inl hk)
      exact hx₁ (.inl hk)
    · obtain rfl := hx₁ (.inr hk)
      exact hx (.inr hk)
  forth p b x hp := by
    obtain ⟨b₁, x₁, hp₁⟩ := h.forth p b x hp
    exact h'.forth p b₁ x₁ hp₁
  next_le := h.next_le.trans h'.next_le

/-- What an object is afterwards. -/
theorem get {b : IFromDB} (h : Regroups w w') (hp : w.heap.get p = some ⟨some b, x⟩) : ∃ b' x',
    w'.heap.get p = some ⟨some b', x'⟩ ∧ b'.core = b.core ∧ (x.kind ≠ .groups ∨ x'.kind ≠ .groups → x' = x) := by
  obtain ⟨b', x', hp'⟩ := h.forth p b x hp
  obtain ⟨b₀, x₀, hp₀, hcore, hx⟩ := h.back p b' x' (Lib.Heap.lt_next hp) hp'
  obtain ⟨rfl, rfl⟩ : b = b₀ ∧ x = x₀ := by simpa [hp] using hp₀
  exact ⟨b', x', hp', hcore, hx⟩

theorem alive (h : Regroups w w') (hp : w.Alive p) : w'.Alive p := by
  obtain ⟨b, x, hg, hb⟩ := hp
  obtain ⟨b', x', hg', hcore, -⟩ := h.get hg
  simp only [IFromDB.core, Prod.mk.injEq] at hcore
  exact ⟨b', x', hg', hcore.2.2.trans hb⟩

theorem alive_back (h : Regroups w w') (hlt : p < w.heap.next) (hp : w'.Alive p) : w.Alive p := by
  obtain ⟨b', x', hg', hb'⟩ := hp
  obtain ⟨b, x, hg, hcore, -⟩ := h.back p b' x' hlt hg'
  simp only [IFromDB.core, Prod.mk.injEq] at hcore
  exact ⟨b, x, hg, hcore.2.2 ▸ hb'⟩

theorem sound (h : Regroups w w') (hw : Sound w) (hg : w'.cash .groups = w.cash .groups) : Sound w' := by
  have hcash : ∀ k, w'.cash k = w.cash k := by
    intro k
    by_cases hk : k = .groups
    · rw [hk, hg]
    · exact h.cash k hk
  refine ⟨fun k p hp => ?_, fun k => by rw [hcash]; exact hw.nodup k⟩
  rw [hcash] at hp
  obtain ⟨b, x, hp₀, hb, hk⟩ := hw.entry k p hp
  obtain ⟨b', x', hp', hcore, hx⟩ := h.get hp₀
  simp only [IFromDB.core, Prod.mk.injEq] at hcore
  refine ⟨b', x', hp', hcore.2.2.trans hb, ?_⟩
  by_cases hk' : x.kind ≠ .groups ∨ x'.kind ≠ .groups
  · rw [hx hk', hk]
  · simp only [not_or, ne_eq, not_not] at hk'
    rw [hk'.2, ← hk'.1, hk]

theorem cached_none (h : Regroups w w') (hn : w'.cached k i = none) : w.cached k i = none ∧ w'.stored k i = w.stored k i := by
  by_cases hk : k = .groups
  · subst hk
    exact h.missing i hn
  · exact ⟨h.cached k i hk ▸ hn, h.stored k i hk⟩

theorem loose_back (h : Regroups w w') (hh : ∀ p, v = .to p → ∃ b x, w.heap.get p = some ⟨some b, x⟩) (hv : w'.Loose v) :
    w.Loose v := by
  cases hv with
  | null => exact .null
  | dead hp hb =>
    obtain ⟨b, x, hp₀⟩ := hh _ rfl
    obtain ⟨b₁, x₁, hp₁, hcore, -⟩ := h.back _ _ _ (Lib.Heap.lt_next hp₀) hp
    simp only [IFromDB.core, Prod.mk.injEq] at hcore
    exact .dead hp₁ (hcore.2.2 ▸ hb)

theorem loose (h : Regroups w w') (hv : w.Loose v) : w'.Loose v := by
  cases hv with
  | null => exact .null
  | dead hp hb =>
    obtain ⟨b', x', hp', hcore, -⟩ := h.get hp
    simp only [IFromDB.core, Prod.mk.injEq] at hcore
    exact .dead hp' (hcore.2.2.trans hb)

/-- A cached object that is no group stays as it is. -/
theorem get_cached {b : IFromDB} (h : Regroups w w') (hw : Sound w) (hk : k ≠ .groups) (hm : p ∈ w.cash k)
    (hp : w'.heap.get p = some ⟨some b, x⟩) : ∃ b₀, w.heap.get p = some ⟨some b₀, x⟩ ∧ b.core = b₀.core := by
  obtain ⟨b₀, x₀, hp₀, hcore, hx⟩ := h.back p b x (hw.lt_next hm) hp
  obtain ⟨b₁, x₁, hp₁, -, hk₁⟩ := hw.entry k p hm
  obtain ⟨rfl, rfl⟩ : b₀ = b₁ ∧ x₀ = x₁ := by simpa [hp₀] using hp₁
  obtain rfl := hx (.inl (hk₁ ▸ hk))
  exact ⟨b₀, hp₀, hcore⟩

theorem found_back (h : Regroups w w') (hw : Sound w) (hk : k ≠ .groups) (hf : w'.Found κ k i d x) : w.Found κ k i d x := by
  cases hf with
  | cached hc hp =>
    rw [h.cached k i hk] at hc
    obtain ⟨b₀, hp₀, hcore⟩ := h.get_cached hw hk (Lib.Conf.cached_mem hc) hp
    simp only [IFromDB.core, Prod.mk.injEq] at hcore
    rw [hcore.2.1]
    exact .cached hc hp₀
  | stored hn hs hc hx =>
    rw [h.stored k i hk] at hs
    exact .stored (h.cached_none hn).1 hs hc hx

theorem found (h : Regroups w w') (hw : Sound w) (hk : k ≠ .groups) (hf : w.Found κ k i d x) : w'.Found κ k i d x := by
  cases hf with
  | @cached p b x hc hp =>
    obtain ⟨b', x', hp', hcore, hx⟩ := h.get hp
    obtain ⟨b₁, x₁, hp₁, -, hk₁⟩ := hw.entry k p (Lib.Conf.cached_mem hc)
    obtain ⟨rfl, rfl⟩ : b = b₁ ∧ x = x₁ := by simpa [hp] using hp₁
    obtain rfl := hx (.inl (hk₁ ▸ hk))
    simp only [IFromDB.core, Prod.mk.injEq] at hcore
    rw [← hcore.2.1]
    exact .cached (by rw [h.cached k i hk, hc]) hp'
  | stored hn hs hc hx => exact .stored (by rw [h.cached k i hk, hn]) (by rw [h.stored k i hk, hs]) hc hx

theorem kept_back (h : Regroups w w') (hw : Sound w) (hk : k ≠ .groups) (hf : w'.Kept κ k d x) : w.Kept κ k d x := by
  cases hf with
  | cached hm hp =>
    rw [h.cash k hk] at hm
    obtain ⟨b₀, hp₀, hcore⟩ := h.get_cached hw hk hm hp
    simp only [IFromDB.core, Prod.mk.injEq] at hcore
    rw [hcore.2.1]
    exact .cached hm hp₀
  | stored hn hs hc hx =>
    rw [h.stored k _ hk] at hs
    exact .stored (h.cached_none hn).1 hs hc hx

theorem leads_back (h : Regroups w w') (hw : Sound w) (hf : f.kind ≠ .groups)
    (hh : ∀ p, v = .to p → ∃ b x, w.heap.get p = some ⟨some b, x⟩) (hl : w'.Leads κ d f v d' x') :
    ∃ x, w.Leads κ d f v d' x ∧ (x.kind ≠ .groups ∨ x'.kind ≠ .groups → x' = x) := by
  cases hl with
  | @held p b' x' hp hb =>
    obtain ⟨b, x, hp₀⟩ := hh p rfl
    obtain ⟨b₁, x₁, hp₁, hcore, hx⟩ := h.back p b' x' (Lib.Heap.lt_next hp₀) hp
    simp only [IFromDB.core, Prod.mk.injEq] at hcore
    rw [hcore.2.1]
    exact ⟨x₁, .held hp₁ (hcore.2.2 ▸ hb), hx⟩
  | found hv hi hfd => exact ⟨x', .found (h.loose_back hh hv) hi (h.found_back hw hf hfd), fun _ => rfl⟩

theorem leads (h : Regroups w w') (hw : Sound w) (hf : f.kind ≠ .groups) (hx : x.kind ≠ .groups) (hl : w.Leads κ d f v d' x) :
    w'.Leads κ d f v d' x := by
  cases hl with
  | @held p b x hp hb =>
    obtain ⟨b', x', hp', hcore, hsame⟩ := h.get hp
    obtain rfl := hsame (.inl hx)
    simp only [IFromDB.core, Prod.mk.injEq] at hcore
    rw [← hcore.2.1]
    exact .held hp' (hcore.2.2.trans hb)
  | found hv hi hfd => exact .found (h.loose hv) hi (h.found hw hf hfd)

theorem follows (h : Regroups w w') (hf : w.Follows κ d f c? v) : w'.Follows κ d f c? v where
  given := hf.given
  held p hp := by
    obtain ⟨b, x, hp⟩ := hf.held p hp
    exact h.forth p b x hp
  key hv := hf.key (h.loose_back hf.held hv)
  loads hv i hi hn d' hs := by
    obtain ⟨hn, hst⟩ := h.cached_none hn
    exact hf.loads (h.loose_back hf.held hv) i hi hn d' (hst ▸ hs)

theorem legible (h : Regroups w w') (hw : Sound w) (ho : w'.Outlives) (hl : w.Legible κ) : w'.Legible κ where
  accounts i d hn hs := by
    obtain ⟨hn, hst⟩ := h.cached_none hn
    exact hl.accounts i d hn (hst ▸ hs)
  groups i d hn hs := by
    obtain ⟨hn, hst⟩ := h.cached_none hn
    exact hl.groups i d hn (hst ▸ hs)
  account d a hk := h.follows (hl.account d a (h.kept_back hw (by decide) hk))
  student d a d' s hk hd := by
    have hk₀ := h.kept_back hw (by decide) hk
    obtain ⟨x, hd₀, hx⟩ := h.leads_back hw (by decide) (hl.account d a hk₀).held hd
    obtain rfl := hx (.inr (by simp [Fields.kind]))
    obtain ⟨hne, hf⟩ := hl.student d a d' s hk₀ hd₀
    exact ⟨hne, h.follows hf⟩
  outlives := ho

theorem fills {a : Account} (h : Regroups w w') (hw : Sound w) (hf : w.Fills κ d a) : w'.Fills κ d a where
  follows := h.follows hf.follows
  held hne p hp := h.alive (hf.held hne p hp)
  shown c hc := by
    obtain ⟨d', x, hd, hx⟩ := hf.shown c hc
    refine ⟨d', x, h.leads hw (by decide) ?_ hd, hx⟩
    rw [Fields.kind_of_classOf (by rw [hc, hx])]
    decide

theorem roster (h : Regroups w w') (hw : Sound w) (hr : w.Roster κ d) : w'.Roster κ d where
  key := hr.key
  members vs hv v hm := by
    obtain ⟨i, rfl, hi⟩ := hr.members vs hv v hm
    refine ⟨i, rfl, ⟨fun hn d hs => ?_, fun d s hf => ?_⟩⟩
    · obtain ⟨hn, hst⟩ := h.cached_none hn
      exact hi.loads hn d (hst ▸ hs)
    · have ho := hi.owned d s (h.found_back hw (by decide) hf)
      refine ⟨h.follows ho.follows, fun d' x' hd => ?_⟩
      obtain ⟨x, hd₀, hx⟩ := h.leads_back hw (by decide) ho.follows.held hd
      obtain ⟨a, rfl, hfills⟩ := ho.fills d' x hd₀
      obtain rfl := hx (.inl (by simp [Fields.kind]))
      exact ⟨a, rfl, h.fills hw hfills⟩

theorem curatorText (h : Regroups w w') (hp : w.Alive p) : w'.curatorText p = w.curatorText p := by
  obtain ⟨b, x, hg, -⟩ := hp
  obtain ⟨b', x', hg', -, hx⟩ := h.get hg
  simp only [Lib.Conf.curatorText, hg, hg', Option.map_some, Option.join_some]
  by_cases hk : x.kind ≠ .groups ∨ x'.kind ≠ .groups
  · rw [hx hk]
  · simp only [not_or, ne_eq, not_not] at hk
    cases x <;> cases x' <;> simp_all [Fields.kind, Fields.curatorText]

theorem bears {q : ℕ} (h : Regroups w w') (hw : Sound w) (hf : f.kind ≠ .groups) (hk : k ≠ .groups) (hp : p ∈ w.cash k)
    (hb : w.Bears p f q) : w'.Bears p f q := by
  obtain ⟨b, x, hg, -, rfl⟩ := hw.entry k p hp
  obtain ⟨b', x', hg', hcore, hx⟩ := h.get hg
  obtain rfl := hx (.inl hk)
  have href : w'.refOf p f = w.refOf p f := by rw [refOf_of_get hg, refOf_of_get hg']
  rcases hb with ⟨hr, hq⟩ | ⟨hr, i, hi, hc⟩
  · exact .inl ⟨href.trans hr, h.alive hq⟩
  · refine .inr ⟨href.trans hr, i, ?_, by rw [h.cached _ _ hf, hc]⟩
    rw [← hi, docRef_of_kept hg hg' hcore]

theorem denotes {q : ℕ} (h : Regroups w w') (hf : f.kind ≠ .groups) (hd : w.Denotes d f q v) : w'.Denotes d f q v := by
  cases hd with
  | held hq => exact .held (h.alive hq)
  | found hv hi hc => exact .found (h.loose hv) hi (by rw [h.cached _ _ hf, hc])

theorem sole {q : ℕ} (h : Regroups w w') (hd : w.Drawable κ) (hs : w.Sole κ q) : w'.Sole κ q where
  borne := by
    obtain ⟨i, p, hst, hc, hb⟩ := hs.borne
    exact ⟨i, p, by rwa [h.stored _ _ (by decide)], by rw [h.cached _ _ (by decide), hc],
      h.bears hd.sound (by decide) (k := .accounts) (by decide) (Lib.Conf.cached_mem hc) hb⟩
  alone e a d' x' text hk hled hq hx := by
    have hk₀ := h.kept_back hd.sound (by decide) hk
    obtain ⟨x, hled₀, hsame⟩ := h.leads_back hd.sound (by decide) (hd.legible.account e a hk₀).held hled
    obtain rfl := hsame (.inr (by rintro hk; cases x' <;> simp_all [Fields.kind, Fields.curatorText]))
    rw [h.curatorText (hs.alive hd.sound)] at hq
    exact h.denotes (by decide) (hs.alone e a d' x' text hk₀ hled₀ hq hx)

end Regroups

end Cbt
