import Edgestore.Tier
import Edgestore.Lib.Run

/-!
# The cache of segment bytes

The tiered engine counts the bytes in its cache by hand, beside a map that forgets the least recently used entry when
it is full. The counter is right, and within its limit, as long as no segment is longer than the limit, and the map
is not so full that it forgets an entry with bytes by itself. Bytes in the cache are those of a download.

## Main definitions

* `SegmentCache.after`: the cache after a lookup
* `SegmentCache.Counted`: the counter is the number of bytes in the cache, and within the limit
* `SegmentCache.Fits`: a lookup that keeps the counter right
* `TierWorld`, `TierRead`: runs of scans

## Main results

* `SegmentCache.counted_after_iff`: which lookups keep the counter right
* `TierWorld.counted_iff`: when the counter is right throughout a run of scans, and where bytes in the cache come from
-/

namespace SegmentCache

/-- The cache after a lookup of a scan. -/
def after (c : SegmentCache) : TierEvent → SegmentCache
  | .hit hash _ => { c with segments := (c.segments.get hash).2 }
  | .downloaded hash (.ok data) => c.cacheSegment hash data
  | .downloaded _ (.error _) => c

/-- The counter is the number of bytes in the cache, and within the limit. No segment is in the map twice. -/
structure Counted (c : SegmentCache) : Prop where
  bytes : c.bytes = c.segments.weight List.length
  bound : c.bytes ≤ c.maxBytes

/-- What the map forgets when one more entry is put, if it is full. -/
def forgets (c : SegmentCache) : Option (Bytes × Bytes) :=
  if c.segments.entries.length = segmentCacheItems then c.segments.entries.getLast? else none

/-- The cache with room for the bytes of a segment. -/
def roomFor (c : SegmentCache) (data : Bytes) : SegmentCache :=
  c.makeRoom data.length (c.segments.entries.length + 1)

/-- A lookup that keeps the counter right: if a segment is put in the cache, it is no longer than the limit, and the
map forgets no entry with bytes. -/
def Fits (c : SegmentCache) : TierEvent → Prop
  | .downloaded _ (.ok data) =>
    c.maxBytes = 0 ∨ data.length ≤ c.maxBytes ∧ ∀ p ∈ (c.roomFor data).forgets, p.2 = []
  | _ => True

/-- What scans look up: the cache has the bytes of a hit, and has none for a hash that is downloaded. -/
def Serves (c : SegmentCache) : TierEvent → Prop
  | .hit hash data => (c.segments.get hash).1 = some data
  | .downloaded hash _ => (c.segments.get hash).1 = none

variable {c : SegmentCache}

/-- Making room drops entries from the end. -/
theorem makeRoom_keeps (incoming n : ℕ) : (c.makeRoom incoming n).maxBytes = c.maxBytes ∧
    (c.makeRoom incoming n).segments.entries <+: c.segments.entries := by
  induction n generalizing c with
  | zero => exact ⟨rfl, List.prefix_refl _⟩
  | succ n ih =>
    unfold makeRoom
    split
    case isFalse => exact ⟨rfl, List.prefix_refl _⟩
    case isTrue =>
      split
      case h_2 => exact ⟨rfl, List.prefix_refl _⟩
      case h_1 hash evicted segments hpop =>
        obtain ⟨hmax, hsub⟩ := @ih { c with segments := segments, bytes := c.bytes - evicted.length }
        exact ⟨hmax, hsub.trans (Lru.popLru_eq_some hpop ▸ List.prefix_append _ _)⟩

/-- **Making room** goes on until there is room or no entry is left, and counts what it drops. -/
theorem makeRoom_spec (incoming : ℕ) {n : ℕ} (hn : c.segments.entries.length < n)
    (hbytes : c.bytes = c.segments.weight List.length) :
    (c.makeRoom incoming n).bytes = (c.makeRoom incoming n).segments.weight List.length ∧
      ((c.makeRoom incoming n).bytes + incoming ≤ c.maxBytes ∨
        (c.makeRoom incoming n).segments.entries = []) := by
  induction n generalizing c with
  | zero => exact absurd hn (Nat.not_lt_zero _)
  | succ n ih =>
    unfold makeRoom
    split
    case isFalse hroom => exact ⟨hbytes, .inl (not_lt.mp hroom)⟩
    case isTrue =>
      split
      case h_2 hnone => exact ⟨hbytes, .inr (Lru.popLru_eq_none.mp hnone)⟩
      case h_1 hash evicted segments hpop =>
        have hlen : segments.entries.length < n := by
          rw [Lru.popLru_eq_some hpop, List.length_append, List.length_singleton] at hn
          exact Nat.lt_of_succ_lt_succ hn
        have hweight : segments.weight List.length + evicted.length = c.segments.weight List.length :=
          Lru.weight_popLru hpop List.length
        have hcount : c.bytes - evicted.length = segments.weight List.length := by omega
        exact @ih { c with segments := segments, bytes := c.bytes - evicted.length } hlen hcount

/-- **A segment that is put in the cache** keeps the counter right if and only if it fits. -/
theorem counted_cacheSegment_iff (h : c.Counted) {hash data : Bytes}
    (hnew : ∀ p ∈ c.segments.entries, p.1 ≠ hash) :
    (c.cacheSegment hash data).Counted ↔ c.Fits (.downloaded hash (.ok data)) := by
  have hfits : c.Fits (.downloaded hash (.ok data)) ↔
      c.maxBytes = 0 ∨ data.length ≤ c.maxBytes ∧ ∀ p ∈ (c.roomFor data).forgets, p.2 = [] := Iff.rfl
  rw [hfits]
  unfold cacheSegment
  by_cases hzero : c.maxBytes = 0
  · rw [if_pos hzero]
    exact ⟨fun _ => .inl hzero, fun _ => h⟩
  rw [if_neg hzero, or_iff_right hzero]
  change Counted { c.roomFor data with
    bytes := (c.roomFor data).bytes + data.length, segments := (c.roomFor data).segments.put hash data } ↔ _
  obtain ⟨hmax, hsub⟩ : (c.roomFor data).maxBytes = c.maxBytes ∧
    (c.roomFor data).segments.entries <+: c.segments.entries := makeRoom_keeps ..
  obtain ⟨hbytes, hroom⟩ : (c.roomFor data).bytes = (c.roomFor data).segments.weight List.length ∧
      ((c.roomFor data).bytes + data.length ≤ c.maxBytes ∨ (c.roomFor data).segments.entries = []) :=
    makeRoom_spec data.length (Nat.lt_succ_self _) h.bytes
  have hnew' : ∀ p ∈ (c.roomFor data).segments.entries, p.1 ≠ hash := fun p hp => hnew p (hsub.subset hp)
  have hempty : (c.roomFor data).segments.entries = [] → (c.roomFor data).bytes = 0 := by
    intro hnil
    rw [hbytes, Lru.weight, hnil]
    rfl
  have hbound : (c.roomFor data).bytes + data.length ≤ c.maxBytes ↔ data.length ≤ c.maxBytes := by
    constructor
    · intro hle
      exact (Nat.le_add_left _ _).trans hle
    · intro hle
      rcases hroom with hroom | hnil
      · exact hroom
      · rw [hempty hnil, Nat.zero_add]
        exact hle
  -- the weight of the new map is what the counter says, unless an entry with bytes is forgotten
  have hweight : (c.roomFor data).bytes + data.length =
      ((c.roomFor data).segments.put hash data).weight List.length ↔
        ∀ p ∈ (c.roomFor data).forgets, p.2 = [] := by
    unfold forgets
    split
    case isFalse hroom' =>
      have hlt := lt_of_le_of_ne (c.roomFor data).segments.length_le hroom'
      rw [Lru.weight_put List.length data hnew' hlt, hbytes, Nat.add_comm]
      exact ⟨fun _ p hp => (by cases hp), fun _ => rfl⟩
    case isTrue hfull =>
      cases hlast : (c.roomFor data).segments.entries.getLast? with
      | none =>
        rw [List.getLast?_eq_none_iff.mp hlast] at hfull
        exact absurd hfull (by decide)
      | some p =>
        have hput := Lru.weight_put_full List.length data hnew' hfull hlast
        constructor
        · intro heq q hq
          cases hq
          refine List.eq_nil_of_length_eq_zero ?_
          omega
        · intro hnil
          have hp : p.2.length = 0 := congrArg List.length (hnil p rfl)
          omega
  constructor
  · rintro ⟨hcount, hle⟩
    exact ⟨hbound.mp (hmax ▸ hle), hweight.mp hcount⟩
  · rintro ⟨hle, hforget⟩
    exact ⟨hweight.mpr hforget, hmax ▸ hbound.mpr hle⟩

/-- **Which lookups keep the counter right.** -/
theorem counted_after_iff (h : c.Counted) {e : TierEvent} (he : c.Serves e) :
    (c.after e).Counted ↔ c.Fits e := by
  match e, he with
  | .hit hash data, _ =>
    refine ⟨fun _ => trivial, fun _ => ⟨?_, h.bound⟩⟩
    exact h.bytes.trans (Lru.weight_get c.segments hash List.length).symm
  | .downloaded hash (.error e), _ => exact ⟨fun _ => trivial, fun _ => h⟩
  | .downloaded hash (.ok data), he => exact counted_cacheSegment_iff h (Lru.not_mem_of_get he)

/-- Bytes in the cache after a lookup. -/
theorem mem_after {p : Bytes × Bytes} {e : TierEvent} (h : p ∈ (c.after e).segments.entries) :
    p ∈ c.segments.entries ∨ e = .downloaded p.1 (.ok p.2) := by
  match e with
  | .hit hash data => exact .inl ((c.segments.get_entries_perm hash).subset h)
  | .downloaded hash (.error e) => exact .inl h
  | .downloaded hash (.ok data) =>
    unfold after cacheSegment at h
    dsimp only at h
    split at h
    case isTrue => exact .inl h
    case isFalse =>
      rcases Lru.mem_put h with rfl | hp
      · exact .inr rfl
      · exact .inl ((makeRoom_keeps data.length _).2.subset hp)

/-! ### Sequences of lookups -/

variable {es : List TierEvent}

/-- **The counter is right throughout a sequence of lookups** if and only if all of them fit. -/
theorem counted_iff_fits (h : c.Counted) (hserves : Run.All after Serves c es) :
    (∀ pre, pre <+: es → (Run.from after c pre).Counted) ↔ Run.All after Fits c es := by
  induction es generalizing c with
  | nil =>
    refine ⟨fun _ => trivial, fun _ pre hpre => ?_⟩
    rw [List.prefix_nil.mp hpre]
    exact h
  | cons e es ih =>
    have hone := counted_after_iff h hserves.1
    constructor
    · intro hall
      have hfirst := hall [e] (List.prefix_append [e] es)
      refine ⟨hone.mp hfirst, (ih hfirst hserves.2).mp fun pre hpre => ?_⟩
      exact hall (e :: pre) ((List.prefix_cons_inj e).mpr hpre)
    · rintro ⟨hfits, hrest⟩ pre hpre
      cases pre with
      | nil => exact h
      | cons e' pre =>
        obtain ⟨rfl, hsub⟩ := List.cons_prefix_cons.mp hpre
        exact (ih (hone.mpr hfits) hserves.2).mpr hrest pre hsub

/-- Bytes in the cache after lookups. -/
theorem mem_from {p : Bytes × Bytes} (h : p ∈ (Run.from after c es).segments.entries) :
    p ∈ c.segments.entries ∨ .downloaded p.1 (.ok p.2) ∈ es := by
  induction es generalizing c with
  | nil => exact .inl h
  | cons e es ih =>
    rcases ih h with hp | hmem
    · rcases mem_after hp with hp | rfl
      · exact .inl hp
      · exact .inr List.mem_cons_self
    · exact .inr (List.mem_cons_of_mem _ hmem)

/-- **The bytes of a hit** have been downloaded under the same hash. -/
theorem downloaded_of_hit (hempty : c.segments.entries = []) (hserves : Run.All after Serves c es)
    {pre post : List TierEvent} {hash data : Bytes} (hes : es = pre ++ .hit hash data :: post) :
    .downloaded hash (.ok data) ∈ pre := by
  subst hes
  have hhit := (Run.all_append.mp hserves).2.1
  rcases mem_from (Lru.mem_of_get hhit) with hmem | hmem
  · rw [hempty] at hmem
    cases hmem
  · exact hmem

end SegmentCache

/-! ### Scans -/

namespace TieredEngine

variable {X : Externals} {Z : Zstd} {archive : Archive} {t t' t'' : TieredEngine} {j j' j'' : List TierEvent}
  {s : Process TieredEngine} {d : (tierDevice X).State}

/-- The downloads of a journal are what the archive answered. -/
def Journaled (archive : Archive) (j : List TierEvent) : Prop :=
  ∀ pre hash answer, pre ++ [.downloaded hash answer] <+: j → answer = archive.download pre hash

/-- What a scan changes: it makes lookups, which the journal records, and they change the cache. -/
def Looks (archive : Archive) (t : TieredEngine) (j : List TierEvent) (t' : TieredEngine)
    (j' : List TierEvent) : Prop :=
  ∃ es, j' = j ++ es ∧ t' = { t with segmentCache := Run.from SegmentCache.after t.segmentCache es } ∧
    Run.All SegmentCache.after SegmentCache.Serves t.segmentCache es ∧
    (Journaled archive j → Journaled archive j')

theorem Looks.refl : Looks archive t j t j := ⟨[], (List.append_nil j).symm, rfl, trivial, fun h => h⟩

theorem Looks.trans (h : Looks archive t j t' j') (h' : Looks archive t' j' t'' j'') :
    Looks archive t j t'' j'' := by
  obtain ⟨es, rfl, rfl, hserves, hjournal⟩ := h
  obtain ⟨es', rfl, rfl, hserves', hjournal'⟩ := h'
  refine ⟨es ++ es', List.append_assoc .., ?_, Run.all_append.mpr ⟨hserves, hserves'⟩,
    fun h => hjournal' (hjournal h)⟩
  rw [Run.from_append]

/-- The journal after a lookup. -/
theorem Journaled.append {e : TierEvent} (h : Journaled archive j)
    (he : ∀ hash answer, e = .downloaded hash answer → answer = archive.download j hash) :
    Journaled archive (j ++ [e]) := by
  intro pre hash answer hpre
  rcases List.prefix_concat_iff.mp hpre with heq | hpre
  · obtain ⟨rfl, hlast⟩ := List.append_inj' heq rfl
    exact he hash answer (List.singleton_inj.mp hlast).symm
  · exact h pre hash answer hpre

theorem Looks.hit {hash data : Bytes} (he : (t.segmentCache.segments.get hash).1 = some data) :
    Looks archive t j { t with segmentCache := t.segmentCache.after (.hit hash data) }
      (j ++ [.hit hash data]) :=
  ⟨[.hit hash data], rfl, rfl, ⟨he, trivial⟩, fun h => h.append fun _ _ heq => (by cases heq)⟩

theorem Looks.downloaded {hash : Bytes} (he : (t.segmentCache.segments.get hash).1 = none) :
    Looks archive t j
      { t with segmentCache := t.segmentCache.after (.downloaded hash (archive.download j hash)) }
      (j ++ [.downloaded hash (archive.download j hash)]) := by
  refine ⟨[.downloaded hash (archive.download j hash)], rfl, rfl, ⟨he, trivial⟩, fun h => h.append ?_⟩
  intro hash' answer heq
  cases heq
  rfl

section

variable {Q : Prog.Post (tierDevice X) (Process TieredEngine) EdgestoreError TieredEngine}

theorem wp_state : Prog.wp state Q s d ↔ Q.ok s.state s d := by
  simp [state]

end

theorem wp_localFiles {Q : Prog.Post (tierDevice X) (Process TieredEngine) EdgestoreError Fs} :
    Prog.wp localFiles Q s d ↔ Q.ok d.1 s d := by
  simp only [localFiles, Prog.wp_onFst]
  exact Prog.wp_disk (D := disk X)

theorem wp_modify {f : TieredEngine → TieredEngine}
    {Q : Prog.Post (tierDevice X) (Process TieredEngine) EdgestoreError Unit} :
    Prog.wp (modify f) Q s d ↔ Q.ok () ⟨f s.state, s.clock⟩ d := by
  simp [modify]

theorem wp_note {e : TierEvent} {Q : Prog.Post (tierDevice X) (Process TieredEngine) EdgestoreError Unit} :
    Prog.wp (note e) Q s d ↔ (Q.rely (.inr e) d → Q.guar (.inr e) d ∧ Q.ok () s (d.1, d.2 ++ [e])) := by
  simp only [note, Prog.wp_onSnd, Prog.wp_emit]

theorem wp_journal {Q : Prog.Post (tierDevice X) (Process TieredEngine) EdgestoreError (List TierEvent)} :
    Prog.wp journal Q s d ↔ Q.ok d.2 s d := by
  simp only [journal, Prog.wp_onSnd]
  exact Prog.wp_disk (D := Device.journal TierEvent)

/-- The specification of scans: they make lookups, whether they succeed or not. -/
abbrev lookPost (X : Externals) (archive : Archive) {α : Type} (t : TieredEngine) (j : List TierEvent) :
    Prog.Post (tierDevice X) (Process TieredEngine) EdgestoreError α :=
  ⟨fun _ s d => Looks archive t j s.state d.2, fun _ s d => Looks archive t j s.state d.2, fun _ _ => True,
    fun _ _ => True⟩

/-- A computation without effects. -/
theorem wp_lift_looks {α : Type} (r : Except EdgestoreError α) (h : Looks archive t j s.state d.2) :
    Prog.wp (Prog.lift r) (lookPost X archive t j) s d := by
  rw [Prog.wp_lift]
  cases r with
  | ok a => exact h
  | error e => exact h

/-- A scan after a part of it. -/
theorem wp_bind_looks {α β : Type} {m : TierExec X α} {k : α → TierExec X β}
    (hm : Prog.wp m (lookPost X archive t j) s d)
    (hk : ∀ a s d, Looks archive t j s.state d.2 → Prog.wp (k a) (lookPost X archive t j) s d) :
    Prog.wp (m >>= k) (lookPost X archive t j) s d := by
  rw [Prog.wp_bind]
  exact Prog.wp_imp hm (fun a s d h => hk a s d h) fun _ _ _ h => h

/-- A lookup of one segment. -/
theorem wp_loadSegment (pairs : List (SegmentMeta × Bytes)) (hash : Bytes) (h : Looks archive t j s.state d.2) :
    Prog.wp (loadSegment archive pairs hash) (lookPost X archive t j) s d := by
  unfold loadSegment
  rw [Prog.wp_bind, wp_state]
  dsimp only
  cases hget : (s.state.segmentCache.segments.get hash).1 with
  | some cached =>
    have hlooks := h.trans (Looks.hit hget)
    simp only [Prog.wp_bind, wp_modify, wp_note, Prog.wp_pure]
    exact fun _ => ⟨trivial, hlooks⟩
  | none =>
    have hlooks := h.trans (Looks.downloaded (j := d.2) hget)
    simp only [download, Prog.wp_bind, wp_journal, wp_note, Prog.wp_pure]
    refine fun _ => ⟨trivial, ?_⟩
    cases hanswer : archive.download d.2 hash with
    | error e =>
      rw [hanswer] at hlooks
      exact (Prog.wp_pure _).mpr hlooks
    | ok data =>
      rw [hanswer] at hlooks
      simp only [Prog.wp_bind, wp_modify, Prog.wp_pure]
      exact hlooks

theorem wp_ephemeralEngineForRange (encStart encEnd : Bytes) (h : Looks archive t j s.state d.2) :
    Prog.wp (ephemeralEngineForRange Z archive encStart encEnd) (lookPost X archive t j) s d := by
  unfold ephemeralEngineForRange
  rw [Prog.wp_bind, wp_state]
  dsimp only
  split
  · exact (Prog.wp_pure _).mpr h
  · refine wp_bind_looks ?_ fun pairs s d h => ?_
    · exact Prog.wp_foldlM
        (fun (_ : List Bytes) (_ : List (SegmentMeta × Bytes)) (s : Process TieredEngine)
          (d : (tierDevice X).State) => Looks archive t j s.state d.2)
        (fun hash _ pairs s d h => wp_loadSegment pairs hash h) (fun _ _ _ h => h) _ _ h
    · split
      · exact (Prog.wp_pure _).mpr h
      · exact wp_bind_looks (wp_lift_looks _ h) fun engine s d h => (Prog.wp_pure _).mpr h

/-- The archived part of a scan. -/
theorem wp_archived_looks {α : Type} {m : Option ImmutableEngine → TierExec X α} (encStart encEnd : Bytes)
    (hm : ∀ engine s d, Looks archive t j s.state d.2 → Prog.wp (m engine) (lookPost X archive t j) s d)
    (h : Looks archive t j s.state d.2) :
    Prog.wp (ephemeralEngineForRange Z archive encStart encEnd >>= m) (lookPost X archive t j) s d :=
  wp_bind_looks (wp_ephemeralEngineForRange encStart encEnd h) hm

theorem wp_rangeArchived (ns start «end» : Bytes) (h : Looks archive t j s.state d.2) :
    Prog.wp (rangeArchived Z archive ns start «end») (lookPost X archive t j) s d := by
  unfold rangeArchived
  refine wp_bind_looks (wp_lift_looks _ h) fun encStart s d h => ?_
  refine wp_bind_looks (wp_lift_looks _ h) fun encEnd s d h => ?_
  refine wp_archived_looks encStart encEnd (fun engine s d h => ?_) h
  cases engine with
  | some engine => exact wp_lift_looks _ h
  | none => exact (Prog.wp_pure _).mpr h

theorem wp_prefixArchived (ns p : Bytes) (h : Looks archive t j s.state d.2) :
    Prog.wp (prefixArchived Z archive ns p) (lookPost X archive t j) s d := by
  unfold prefixArchived
  refine wp_bind_looks (wp_lift_looks _ h) fun encPrefix s d h => ?_
  refine wp_archived_looks encPrefix _ (fun engine s d h => ?_) h
  cases engine with
  | some engine => exact wp_lift_looks _ h
  | none => exact (Prog.wp_pure _).mpr h

theorem wp_range (ns start «end» : Bytes) (h : Looks archive t j s.state d.2) :
    Prog.wp (range Z archive ns start «end») (lookPost X archive t j) s d := by
  unfold range
  refine wp_bind_looks (wp_localFiles.mpr h) fun files s d h => ?_
  refine wp_bind_looks (wp_state.mpr h) fun t' s d h => ?_
  refine wp_bind_looks (wp_lift_looks _ h) fun loc s d h => ?_
  exact wp_bind_looks (wp_rangeArchived ns start «end» h) fun archived s d h => (Prog.wp_pure _).mpr h

theorem wp_prefixScan (ns p : Bytes) (h : Looks archive t j s.state d.2) :
    Prog.wp (prefixScan Z archive ns p) (lookPost X archive t j) s d := by
  unfold prefixScan
  refine wp_bind_looks (wp_localFiles.mpr h) fun files s d h => ?_
  refine wp_bind_looks (wp_state.mpr h) fun t' s d h => ?_
  refine wp_bind_looks (wp_lift_looks _ h) fun loc s d h => ?_
  exact wp_bind_looks (wp_prefixArchived ns p h) fun archived s d h => (Prog.wp_pure _).mpr h

end TieredEngine

/-! ### Runs -/

/-- A scan through the tiered engine. -/
inductive TierRead
  | range (ns start «end» : Bytes)
  | prefixScan (ns p : Bytes)

/-- The tiered engine with its files, and the journal. -/
structure TierWorld where
  engine : TieredEngine
  files : Fs
  journal : List TierEvent

namespace TierWorld

open TieredEngine

variable {X : Externals} {Z : Zstd} {archive : Archive}

/-- The program of a scan. -/
def program (X : Externals) (Z : Zstd) (archive : Archive) : TierRead → TierExec X (List (Bytes × Bytes))
  | .range ns start «end» => TieredEngine.range Z archive ns start «end»
  | .prefixScan ns p => TieredEngine.prefixScan Z archive ns p

/-- A scan, whether it succeeds or not. -/
def step (X : Externals) (Z : Zstd) (archive : Archive) (w : TierWorld) (read : TierRead) : TierWorld :=
  let (_, s, effects) := (program X Z archive read).run ⟨w.engine, fun _ => 0⟩ (w.files, w.journal)
  let (files, journal) := (tierDevice X).run effects (w.files, w.journal)
  { engine := s.state, files := files, journal := journal }

/-- A tiered engine that has not looked up an archived segment yet. -/
def start (localEngine : Engine) (archived : List ArchivedSegment) (fetched : List Bytes) (maxBytes : ℕ)
    (files : Fs) : TierWorld :=
  { engine := { localEngine := localEngine, archived := archived, fetched := fetched,
                segmentCache := { maxBytes := maxBytes } },
    files := files, journal := [] }

/-- What one scan changes. -/
theorem step_looks (w : TierWorld) (read : TierRead) :
    Looks archive w.engine w.journal (step X Z archive w read).engine (step X Z archive w read).journal := by
  have hspec : Prog.wp (program X Z archive read) (lookPost X archive w.engine w.journal)
      ⟨w.engine, fun _ => 0⟩ (w.files, w.journal) := by
    cases read with
    | range ns start «end» => exact wp_range ns start «end» Looks.refl
    | prefixScan ns p => exact wp_prefixScan ns p Looks.refl
  have hresult := Prog.wp_result hspec Device.all_true
  unfold step
  generalize (program X Z archive read).run ⟨w.engine, fun _ => 0⟩ (w.files, w.journal) = r at hresult ⊢
  obtain ⟨result, s, effects⟩ := r
  cases result with
  | ok pairs => exact hresult
  | error e => exact hresult

/-- What a run of scans changes. -/
theorem run_looks (w : TierWorld) (reads : List TierRead) :
    Looks archive w.engine w.journal (Run.from (step X Z archive) w reads).engine
      (Run.from (step X Z archive) w reads).journal := by
  induction reads generalizing w with
  | nil => exact Looks.refl
  | cons read reads ih => exact (step_looks w read).trans (ih _)

/-- **The counter of the cache** after any scans, whatever the archive delivers. The lookups that the journal records
have filled the cache. The counter has been the number of bytes in the cache, and within the limit, all along if
and only if each segment that was put in the cache was no longer than the limit and made the map forget no entry
with bytes. The bytes of a hit are those of an earlier download. -/
theorem counted_iff (X : Externals) (Z : Zstd) (archive : Archive) (localEngine : Engine)
    (archived : List ArchivedSegment) (fetched : List Bytes) (maxBytes : ℕ) (files : Fs)
    (reads : List TierRead) :
    let cache : SegmentCache := { maxBytes := maxBytes }
    let w := Run.from (step X Z archive) (start localEngine archived fetched maxBytes files) reads
    w.engine.segmentCache = Run.from SegmentCache.after cache w.journal ∧
    ((∀ pre, pre <+: w.journal → (Run.from SegmentCache.after cache pre).Counted) ↔
      Run.All SegmentCache.after SegmentCache.Fits cache w.journal) ∧
    ∀ pre hash data, pre ++ [.hit hash data] <+: w.journal →
      ∃ pre', pre' ++ [.downloaded hash (.ok data)] <+: pre ∧ archive.download pre' hash = .ok data := by
  intro cache w
  obtain ⟨es, hjournal, hengine, hserves, hanswers⟩ : Looks archive
    (start localEngine archived fetched maxBytes files).engine [] w.engine w.journal := run_looks _ reads
  rw [List.nil_append] at hjournal
  subst hjournal
  have hcounted : cache.Counted := ⟨rfl, Nat.zero_le _⟩
  refine ⟨congrArg TieredEngine.segmentCache hengine, SegmentCache.counted_iff_fits hcounted hserves, ?_⟩
  rintro pre hash data ⟨post, hpost⟩
  have hpre : pre <+: w.journal :=
    ⟨.hit hash data :: post, by rw [← hpost, List.append_assoc]; rfl⟩
  have hmem : TierEvent.downloaded hash (.ok data) ∈ pre :=
    SegmentCache.downloaded_of_hit rfl hserves (by rw [← hpost, List.append_assoc]; rfl)
  obtain ⟨pre', rest, rfl⟩ := List.append_of_mem hmem
  have hsub : pre' ++ [.downloaded hash (.ok data)] <+: pre' ++ .downloaded hash (.ok data) :: rest :=
    (List.prefix_append_right_inj _).mpr (List.prefix_append [_] rest)
  refine ⟨pre', hsub, (hanswers ?_ pre' hash (.ok data) (hsub.trans hpre)).symm⟩
  intro pre hash answer hempty
  exact absurd (List.eq_nil_of_prefix_nil hempty) (List.append_ne_nil_of_right_ne_nil _ (List.cons_ne_nil _ _))

/-- A segment that is longer than the limit stays in the cache, and the counter is above the limit. -/
theorem cache_exceeds_limit :
    let emptyEngine : Engine := ⟨{}, ⟨1, 8, 0, 0, 0⟩, .empty, 0, 0, ⟨⟨8, []⟩, [], 1, 3600⟩, {}⟩
    let hash : Bytes := List.replicate 32 1
    let segment : Bytes := List.replicate segmentHeaderLen 0
    let archive : Archive := { download := fun _ _ => .ok segment }
    let w := step plainExternals plainZstd archive (start emptyEngine [⟨hash, [], [255]⟩] [] 1 {})
      (.range [] [] [1])
    w.engine.segmentCache.maxBytes = 1 ∧ w.engine.segmentCache.bytes = 8 ∧
      w.engine.segmentCache.segments.entries = [(hash, segment)] := by
  decide +kernel

end TierWorld
