import Edgestore.Manifest
import Edgestore.Lib.Run
import Edgestore.PlainExternals
import Mathlib.Data.List.Infix

/-!
# Replaying the manifest after crashes

A manifest is used by a sequence of processes. Each opens it, makes calls, and stops: between two
calls, or inside a call, after some of its effects and some bytes of the next. The list that a later
`Manifest.open` holds is compared with the calls that were made.

A call that meets a torn frame appends behind bytes that the replay never crosses, so its frame is
lost. Calls that meet a file without torn frame are all recovered.

## Main definitions

* `ManifestCall`, `ManifestCall.exec`: the calls, and the code of each
* `ManifestStep`, `ManifestRun.step`: runs of calls, crashes and reopenings
* `possible`: the lists that the outcomes of the calls allow

## Main results

* `ManifestRun.open_mem_possible`: after a run whose calls meet no torn frame, the manifest opens
  and holds a list that the outcomes allow
* `ManifestRun.torn_frame_hides_add`: an add behind a torn frame is lost
-/

open FramedLog

variable {X : Externals}

/-- A call that changes the manifest. -/
inductive ManifestCall
  | add (m : SegmentMeta)
  | remove (ids : List SegmentId)
  deriving DecidableEq, Repr

namespace ManifestCall

/-- The code of a call. -/
def exec : ManifestCall → Exec X Manifest Unit
  | add m => Manifest.addSegment m
  | remove ids => Manifest.removeSegments ids

/-- What a call is for: add a segment at the end, or remove some by id. -/
def apply (segs : List SegmentMeta) : ManifestCall → List SegmentMeta
  | add m => segs ++ [m]
  | remove ids => segs.filter fun m => m.segmentId ∉ ids

/-- The frames a call writes. -/
def entries : ManifestCall → List ManifestEntry
  | add m => [addEntry m]
  | remove ids => ids.map removeEntry

/-- The ids of a removal are 64-bit numbers. -/
def InRange : ManifestCall → Prop
  | add _ => True
  | remove ids => ∀ id ∈ ids, id < 2 ^ 64

instance : DecidablePred InRange
  | add _ => .isTrue trivial
  | remove ids => inferInstanceAs (Decidable (∀ id ∈ ids, id < 2 ^ 64))

/-- What an interrupted call may leave: nothing or all of an addition, a removal of the first ids
of a removal. -/
def parts (segs : List SegmentMeta) : ManifestCall → List (List SegmentMeta)
  | add m => [segs, segs ++ [m]]
  | remove ids => ids.inits.map fun ids' => apply segs (remove ids')

end ManifestCall

/-- What became of a call: it returned, or the process stopped inside it. A call that returned an
error leaves no trace. -/
inductive CallOutcome
  | done (c : ManifestCall)
  | interrupted (c : ManifestCall)
  deriving DecidableEq, Repr

/-- The lists of segments that the outcomes of the calls allow. -/
def possible : List CallOutcome → List (List SegmentMeta)
  | os => os.foldl (fun lists o =>
      lists.flatMap fun segs =>
        match o with
        | .done c => [c.apply segs]
        | .interrupted c => c.parts segs) [[]]

/-- One step of the life of a manifest. -/
inductive ManifestStep
  | call (c : ManifestCall)
  | crash (c : ManifestCall) (n m : ℕ)
  | reopen
  deriving DecidableEq, Repr

/-- The file, the open handle if there is one, and the outcomes of the calls so far. -/
structure ManifestRun where
  fs : Fs := {}
  handle : Option Manifest := none
  outcomes : List CallOutcome := []

namespace ManifestRun

/-- Call `Manifest.open` on a directory. -/
def openManifest (X : Externals) (fs : Fs) : Except EdgestoreError Manifest × Fs :=
  let r := (Manifest.open (X := X) (σ := Unit)).run ⟨(), fun _ => 0⟩ fs
  (r.1, (disk X).run r.2.2 fs)

/-- Make a step. Calls need an open manifest. A crash stops the process `m` units into the effect
after the first `n` of the call. -/
def step (X : Externals) (s : ManifestRun) : ManifestStep → ManifestRun
  | .call c =>
    match s.handle with
    | none => s
    | some h =>
      let r := (c.exec (X := X)).run ⟨h, fun _ => 0⟩ s.fs
      { fs := (disk X).run r.2.2 s.fs
        handle := some r.2.1.state
        outcomes := match r.1 with
          | .ok () => s.outcomes ++ [.done c]
          | .error _ => s.outcomes }
  | .crash c n m =>
    match s.handle with
    | none => s
    | some h =>
      let r := (c.exec (X := X)).run ⟨h, fun _ => 0⟩ s.fs
      { fs := (disk X).cut r.2.2 n m s.fs
        handle := none
        outcomes := s.outcomes ++ [.interrupted c] }
  | .reopen =>
    { s with
      fs := (openManifest X s.fs).2
      handle := (openManifest X s.fs).1.toOption }

/-- A call is made on a file that ends at the end of a frame. -/
def CallsUntorn (X : Externals) (s : ManifestRun) : ManifestStep → Prop
  | .call c => ManifestClean X s.fs ∧ c.InRange
  | .crash c _ _ => ManifestClean X s.fs ∧ c.InRange
  | .reopen => True

instance (X : Externals) (s : ManifestRun) : DecidablePred (CallsUntorn X s)
  | .call c => inferInstanceAs (Decidable (ManifestClean X s.fs ∧ c.InRange))
  | .crash c _ _ => inferInstanceAs (Decidable (ManifestClean X s.fs ∧ c.InRange))
  | .reopen => .isTrue trivial

end ManifestRun

/-! ### What the calls do to the file -/

/-- The open manifest `m` is in step with its file, which holds the frames of `xs` and no torn
rest. -/
structure Manifest.InSync (X : Externals) (m : Manifest) (fs : Fs) (xs : List ManifestEntry) :
    Prop where
  log : ManifestLog X fs xs
  clean : ManifestClean X fs
  pos : m.pos = (fs.manifest.getD []).length
  segments : m.segments = replay xs

/-- An effect of a call that writes the frames `es` behind those of `xs`: a sync, or the next
frame, written at the end of a file without torn rest. -/
def WritesFrames (X : Externals) (xs es : List ManifestEntry) : Effect → Fs → Prop
  | .sync _, _ => True
  | .manifestAppend pos e, fs => ∃ before, (before ++ [e]) <+: es ∧ ManifestLog X fs (xs ++ before) ∧
      ManifestClean X fs ∧ pos = (fs.manifest.getD []).length ∧
      (X.manifestJson e).length ≤ maxEntryLen
  | _, _ => False

/-- The file holds the frames of `xs` and the first of those of `es`. -/
def HoldsPrefix (X : Externals) (xs es : List ManifestEntry) (fs : Fs) : Prop :=
  ∃ before, before <+: es ∧ ManifestLog X fs (xs ++ before)

theorem holdsPrefix_apply {xs es : List ManifestEntry} {e : Effect} {fs : Fs}
    (h : WritesFrames X xs es e fs) (hp : HoldsPrefix X xs es fs) :
    HoldsPrefix X xs es (applyEffect X e fs) := by
  cases e with
  | sync f => exact hp
  | manifestAppend pos e =>
    obtain ⟨before, hpre, hlog, hclean, hpos, hjson⟩ := h
    refine ⟨before ++ [e], hpre, ?_⟩
    rw [← List.append_assoc]
    exact (hlog.append hclean hjson hpos).1
  | _ => exact h.elim

theorem holdsPrefix_tear {xs es : List ManifestEntry} {e : Effect} {fs : Fs}
    (h : WritesFrames X xs es e fs) (hp : HoldsPrefix X xs es fs) (m : ℕ) :
    HoldsPrefix X xs es (tearEffect X e m fs) := by
  cases e with
  | sync f => exact hp
  | manifestAppend pos e =>
    obtain ⟨before, hpre, hlog, hclean, hpos, hjson⟩ := h
    rcases hlog.append_torn hclean hjson hpos m with hlog | hlog
    · exact ⟨before, (List.prefix_append before [e]).trans hpre, hlog⟩
    · exact ⟨before ++ [e], hpre, by rw [← List.append_assoc]; exact hlog⟩
  | _ => exact h.elim

/-- Writing one frame behind `before`, as part of the frames `es`. -/
theorem Manifest.wp_writeFramedEntry {m : Manifest} {fs : Fs} {clock : ℕ → ℕ}
    {xs es before : List ManifestEntry} {e : ManifestEntry} (hlog : ManifestLog X fs (xs ++ before))
    (hclean : ManifestClean X fs) (hpos : m.pos = (fs.manifest.getD []).length)
    (hpre : (before ++ [e]) <+: es) :
    Prog.wp (Manifest.writeFramedEntry (X := X) e)
      ⟨fun _ p fs' => ManifestLog X fs' (xs ++ (before ++ [e])) ∧ ManifestClean X fs' ∧
          p.state.pos = (fs'.manifest.getD []).length ∧ p.state.segments = m.segments,
        fun _ p fs' => maxEntryLen < (X.manifestJson e).length ∧ p.state = m ∧ fs' = fs,
        fun _ _ => True, WritesFrames X xs es⟩ ⟨m, clock⟩ fs := by
  rw [Manifest.writeFramedEntry, Prog.wp_ite]
  split
  case isTrue hbig => exact (Prog.wp_throw _).mpr ⟨hbig, rfl, rfl⟩
  case isFalse hsmall =>
    have hjson : (X.manifestJson e).length ≤ maxEntryLen := Nat.le_of_not_lt hsmall
    obtain ⟨hlog', hclean'⟩ := hlog.append hclean hjson hpos
    have hlen : ((applyEffect X (.manifestAppend m.pos e) fs).manifest.getD []).length =
        m.pos + (frame (manifestFormat X) e).length := by
      obtain ⟨rest, hfs, -⟩ := hlog
      rw [hpos, hfs, Option.getD_some, manifest_manifestAppend hfs, Option.getD_some,
        List.length_append]
    simp only [Prog.wp_bind, Exec.wp_get, Exec.wp_effect, Exec.wp_modify, forall_const]
    refine ⟨⟨before, hpre, hlog, hclean, hpos, hjson⟩, ?_, hclean', hlen.symm, trivial⟩
    rwa [← List.append_assoc]

/-- **A call** appends its frames and stays in step with the file, or fails without a trace. -/
theorem ManifestCall.wp_exec {c : ManifestCall} {m : Manifest} {fs : Fs} {clock : ℕ → ℕ}
    {xs : List ManifestEntry} (h : m.InSync X fs xs) (hc : c.InRange) :
    Prog.wp (c.exec (X := X))
      ⟨fun _ p fs' => p.state.InSync X fs' (xs ++ c.entries),
        fun _ p fs' => p.state = m ∧ fs' = fs, fun _ _ => True, WritesFrames X xs c.entries⟩
      ⟨m, clock⟩ fs := by
  cases c with
  | add sm =>
    rw [exec, Manifest.addSegment, Prog.wp_bind]
    have hlog : ManifestLog X fs (xs ++ []) := by rw [List.append_nil]; exact h.log
    refine Prog.wp_imp (Manifest.wp_writeFramedEntry hlog h.clean h.pos (List.prefix_refl _)) ?_
      (fun _ _ _ he => he.2)
    rintro _ p fs' ⟨hlog, hclean, hpos, hsegs⟩
    simp only [Prog.wp_bind, Exec.wp_effect, Exec.wp_modify, forall_const]
    refine ⟨trivial, hlog, hclean, hpos, ?_⟩
    simp only [entries, replay_append, hsegs, h.segments, List.foldl_cons, List.foldl_nil,
      applyEntry_add]
  | remove ids =>
    rw [exec, Manifest.removeSegments, Prog.wp_bind]
    -- the loop has written the frames of the ids before those still to come
    refine Prog.wp_forM (fun rest p fs' => ∃ before, before ++ rest = ids ∧
        ManifestLog X fs' (xs ++ before.map removeEntry) ∧ ManifestClean X fs' ∧
        p.state.pos = (fs'.manifest.getD []).length ∧ p.state.segments = m.segments)
      ?step ?done ids ⟨[], rfl, by simpa using h.log, h.clean, h.pos, rfl⟩
    case step =>
      rintro id rest p fs' ⟨before, hids, hlog, hclean, hpos, hsegs⟩
      have hpre : before.map removeEntry ++ [removeEntry id] <+: ids.map removeEntry := by
        rw [← hids]
        exact ⟨rest.map removeEntry, by simp⟩
      refine Prog.wp_imp (Manifest.wp_writeFramedEntry hlog hclean hpos hpre) ?_ ?_
      · rintro _ p' fs'' ⟨hlog', hclean', hpos', hsegs'⟩
        exact ⟨before ++ [id], by simp [← hids], by simpa using hlog', hclean', hpos',
          hsegs'.trans hsegs⟩
      · rintro _ p' fs'' ⟨hbig, -, -⟩
        have hid : id < 2 ^ 64 := hc id (by simp [← hids])
        exact absurd (fits_removeEntry (X := X) hid) (by omega)
    case done =>
      rintro p fs' ⟨before, hids, hlog, hclean, hpos, hsegs⟩
      obtain rfl : before = ids := by simpa using hids
      simp only [Prog.wp_bind, Exec.wp_effect, Exec.wp_modify, forall_const]
      refine ⟨trivial, hlog, hclean, hpos, ?_⟩
      simp only [entries, replay_append, foldl_removeEntry, hsegs, h.segments]

/-! ### What the outcomes allow -/

theorem mem_possible_done {os : List CallOutcome} {segs : List SegmentMeta} (c : ManifestCall)
    (h : segs ∈ possible os) : c.apply segs ∈ possible (os ++ [.done c]) := by
  simp only [possible, List.foldl_append, List.foldl_cons, List.foldl_nil, List.mem_flatMap]
  exact ⟨segs, h, List.mem_singleton_self _⟩

theorem mem_possible_interrupted {os : List CallOutcome} {segs segs' : List SegmentMeta}
    {c : ManifestCall} (h : segs ∈ possible os) (hp : segs' ∈ c.parts segs) :
    segs' ∈ possible (os ++ [.interrupted c]) := by
  simp only [possible, List.foldl_append, List.foldl_cons, List.foldl_nil, List.mem_flatMap]
  exact ⟨segs, h, hp⟩

/-- The frames of a call do what the call is for. -/
theorem ManifestCall.foldl_entries (c : ManifestCall) (segs : List SegmentMeta) :
    c.entries.foldl applyEntry segs = c.apply segs := by
  cases c with
  | add m => rfl
  | remove ids => exact foldl_removeEntry segs ids

/-- The first frames of a call do a part of what the call is for. -/
theorem ManifestCall.foldl_prefix_mem_parts (c : ManifestCall) (segs : List SegmentMeta)
    {before : List ManifestEntry} (h : before <+: c.entries) :
    before.foldl applyEntry segs ∈ c.parts segs := by
  cases c with
  | add m =>
    rcases List.prefix_cons_iff.mp h with rfl | ⟨t, rfl, ht⟩
    · exact List.mem_cons_self
    · obtain rfl := List.prefix_nil.mp ht
      exact List.mem_cons_of_mem _ (List.mem_singleton_self _)
  | remove ids =>
    obtain ⟨rest, hrest⟩ := h
    obtain ⟨ids', _, hids, hids', _⟩ := List.append_eq_map_iff.mp hrest
    rw [← hids', foldl_removeEntry]
    exact List.mem_map.mpr ⟨ids', (List.mem_inits _ _).mpr ⟨_, hids.symm⟩, rfl⟩

/-! ### Runs -/

namespace ManifestRun

/-- The invariant of runs: there is no manifest yet, or the file is a log whose replay the outcomes
allow, and an open handle is at its end with that list in memory. -/
def Replays (X : Externals) (s : ManifestRun) : Prop :=
  (s.fs.manifest = none ∧ s.handle = none ∧ s.outcomes = []) ∨
  ∃ xs, ManifestLog X s.fs xs ∧ replay xs ∈ possible s.outcomes ∧
    ∀ h, s.handle = some h → h.pos = (s.fs.manifest.getD []).length ∧ h.segments = replay xs

/-- Opening a log replays it. -/
theorem openManifest_log {fs : Fs} {xs : List ManifestEntry} (h : ManifestLog X fs xs) :
    openManifest X fs = (.ok ⟨(fs.manifest.getD []).length, replay xs⟩, fs) := by
  have hreg := h.registered_eq
  obtain ⟨rest, hfs, hrest⟩ := h
  rw [registered, hfs, Option.getD_some] at hreg
  have hwp : Prog.wp (Manifest.open (X := X) (σ := Unit))
      ⟨fun m _ fs' => m = ⟨(fs.manifest.getD []).length, replay xs⟩ ∧ fs' = fs,
        fun _ _ _ => False, fun _ _ => True, fun _ _ => True⟩ ⟨(), fun _ => 0⟩ fs := by
    simp only [Manifest.open, Prog.wp_bind, Exec.wp_fs, hfs, Prog.wp_lift,
      checkManifestHeader_header, Prog.result_ok, Prog.wp_pure, hreg, Option.getD_some, and_self]
  have hres := Prog.wp_result hwp Device.all_true
  rw [openManifest]
  generalize (Manifest.open (X := X) (σ := Unit)).run ⟨(), fun _ => 0⟩ fs = r at hres ⊢
  rcases r with ⟨_ | m, p, es⟩
  · exact hres.elim
  · exact Prod.ext (congrArg Except.ok hres.1) hres.2

/-- Opening a fresh directory creates an empty manifest. -/
theorem openManifest_none {fs : Fs} (h : fs.manifest = none) :
    (openManifest X fs).1 = .ok ⟨manifestHeader.length, []⟩ ∧
      (openManifest X fs).2.manifest = some manifestHeader := by
  have hwp : Prog.wp (Manifest.open (X := X) (σ := Unit))
      ⟨fun m _ fs' => m = ⟨manifestHeader.length, []⟩ ∧ fs'.manifest = some manifestHeader,
        fun _ _ _ => False, fun _ _ => True, fun _ _ => True⟩ ⟨(), fun _ => 0⟩ fs := by
    simp only [Manifest.open, Prog.wp_bind, Exec.wp_fs, h, Exec.wp_effect, Prog.wp_pure,
      forall_const, true_and]
    rfl
  have hres := Prog.wp_result hwp Device.all_true
  rw [openManifest]
  generalize (Manifest.open (X := X) (σ := Unit)).run ⟨(), fun _ => 0⟩ fs = r at hres ⊢
  rcases r with ⟨_ | m, p, es⟩
  · exact hres.elim
  · exact ⟨congrArg Except.ok hres.1, hres.2⟩

theorem manifestLog_header {fs : Fs} (h : fs.manifest = some manifestHeader) :
    ManifestLog X fs [] := ⟨[], by simpa using h, framed_nil⟩

theorem replays_reopen {s : ManifestRun} (h : s.Replays X) : (s.step X .reopen).Replays X := by
  rcases h with ⟨hfs, -, hout⟩ | ⟨xs, hlog, hposs, -⟩
  · obtain ⟨hok, hman⟩ := openManifest_none (X := X) hfs
    refine .inr ⟨[], manifestLog_header hman, ?_, ?_⟩
    · simp only [step, hout]
      exact List.mem_singleton_self _
    · intro h hh
      simp only [step, hok, Except.toOption, Option.some.injEq] at hh
      subst hh
      simp only [step, hman, Option.getD_some, true_and]
      rfl
  · refine .inr ⟨xs, ?_, hposs, ?_⟩
    · simpa only [step, openManifest_log hlog] using hlog
    · intro h hh
      simp only [step, openManifest_log hlog, Except.toOption, Option.some.injEq] at hh ⊢
      subst hh
      exact ⟨rfl, rfl⟩

theorem inSync_of_handle {s : ManifestRun} {h : Manifest} {xs : List ManifestEntry}
    (hlog : ManifestLog X s.fs xs) (hclean : ManifestClean X s.fs)
    (hh : h.pos = (s.fs.manifest.getD []).length ∧ h.segments = replay xs) : h.InSync X s.fs xs :=
  ⟨hlog, hclean, hh.1, hh.2⟩

theorem replays_call {s : ManifestRun} {c : ManifestCall} (h : s.Replays X)
    (hok : CallsUntorn X s (.call c)) : (s.step X (.call c)).Replays X := by
  cases hh : s.handle with
  | none => simpa only [step, hh] using h
  | some m =>
    rcases h with ⟨-, hnone, -⟩ | ⟨xs, hlog, hposs, hhandle⟩
    · rw [hnone] at hh
      cases hh
    have hres := Prog.wp_result (ManifestCall.wp_exec
      (inSync_of_handle hlog hok.1 (hhandle m hh)) hok.2 :
        Prog.wp (c.exec (X := X)) _ ⟨m, fun _ => 0⟩ s.fs) Device.all_true
    simp only [step, hh]
    generalize (c.exec (X := X)).run ⟨m, fun _ => 0⟩ s.fs = r at hres ⊢
    rcases r with ⟨e | ⟨⟩, p, es⟩
    · obtain ⟨hm, hfs⟩ := hres
      simp only at hm hfs
      refine .inr ⟨xs, by simpa only [hfs] using hlog, hposs, fun h' hh' => ?_⟩
      simp only [Option.some.injEq] at hh'
      subst hh'
      rw [hm, hfs]
      exact hhandle m hh
    · refine .inr ⟨xs ++ c.entries, hres.log, ?_, fun h' hh' => ?_⟩
      · rw [replay_append, c.foldl_entries]
        exact mem_possible_done c hposs
      · simp only [Option.some.injEq] at hh'
        subst hh'
        exact ⟨hres.pos, hres.segments⟩

theorem replays_crash {s : ManifestRun} {c : ManifestCall} {n m : ℕ} (h : s.Replays X)
    (hok : CallsUntorn X s (.crash c n m)) : (s.step X (.crash c n m)).Replays X := by
  cases hh : s.handle with
  | none => simpa only [step, hh] using h
  | some man =>
    rcases h with ⟨-, hnone, -⟩ | ⟨xs, hlog, hposs, hhandle⟩
    · rw [hnone] at hh
      cases hh
    have hguar := Prog.wp_guar (ManifestCall.wp_exec
      (inSync_of_handle hlog hok.1 (hhandle man hh)) hok.2 :
        Prog.wp (c.exec (X := X)) _ ⟨man, fun _ => 0⟩ s.fs) Device.all_true
    have hcut := hguar.cut (I := HoldsPrefix X xs c.entries)
      (fun e fs hg hI => holdsPrefix_apply hg hI) (fun e fs hg hI m => holdsPrefix_tear hg hI m)
      ⟨[], List.nil_prefix, by simpa using hlog⟩ n m
    obtain ⟨before, hpre, hlog'⟩ := hcut
    simp only [step, hh]
    refine .inr ⟨xs ++ before, hlog', ?_, fun h' hh' => by cases hh'⟩
    rw [replay_append]
    exact mem_possible_interrupted hposs (c.foldl_prefix_mem_parts _ hpre)

/-- **The manifest refines its calls.** In a run whose calls are all made on a file that ends at
the end of a frame, the next `Manifest.open` succeeds and holds a list of segments that the
outcomes of the calls allow, the one an open handle already holds in memory. -/
theorem open_mem_possible {steps : List ManifestStep}
    (h : Run.All (step X) (CallsUntorn X) {} steps) :
    ∃ m, (openManifest X (Run.from (step X) {} steps).fs).1 = .ok m ∧
      m.segments ∈ possible (Run.from (step X) {} steps).outcomes ∧
      ∀ h, (Run.from (step X) {} steps).handle = some h → h.segments = m.segments := by
  have hinv : (Run.from (step X) {} steps).Replays X := by
    refine h.invariant (I := Replays X) ?_ (.inl ⟨rfl, rfl, rfl⟩)
    rintro s (c | ⟨c, n, m⟩ | _) hs hok
    · exact replays_call hs hok
    · exact replays_crash hs hok
    · exact replays_reopen hs
  rcases hinv with ⟨hfs, hhandle, hout⟩ | ⟨xs, hlog, hposs, hhandle⟩
  · refine ⟨_, (openManifest_none hfs).1, ?_, ?_⟩
    · rw [hout]
      exact List.mem_singleton_self _
    · rw [hhandle]
      rintro h ⟨⟩
  · exact ⟨_, congrArg Prod.fst (openManifest_log hlog), hposs, fun h hh => (hhandle h hh).2⟩

/-- The metadata of a segment with one key. -/
def sampleMeta (id : SegmentId) : SegmentMeta where
  segmentId := id
  segmentHash := []
  minKey := [0]
  maxKey := [0]
  minLsn := id + 1
  maxLsn := id + 1
  recordCount := 1
  compressedBytes := 1
  uncompressedBytes := 1
  compression := "zstd:1"
  cohortBucket := 0
  deathTime := 0
  merkleRoot := []
  createdAt := 0
  textIndexStripped := false
  vectorIndexStripped := false

/-- A run with a torn frame that a removal of the first segment precedes. -/
def tornLastRun : List ManifestStep :=
  [.reopen, .call (.add (sampleMeta 0)), .call (.add (sampleMeta 1)), .call (.remove [0]),
    .crash (.add (sampleMeta 2)) 0 10]

theorem open_mem_possible_tornLastRun :
    Run.All (step plainExternals) (CallsUntorn plainExternals) {} tornLastRun ∧
      ∃ m, (openManifest plainExternals
        (Run.from (step plainExternals) {} tornLastRun).fs).1 = .ok m ∧
      m.segments ∈ possible (Run.from (step plainExternals) {} tornLastRun).outcomes ∧
      ∀ h, (Run.from (step plainExternals) {} tornLastRun).handle = some h →
        h.segments = m.segments :=
  ⟨by decide +kernel, open_mem_possible (by decide +kernel)⟩

/-- A run that adds a second segment behind a frame torn after ten bytes. -/
def tornMiddleRun : List ManifestStep :=
  [.reopen, .call (.add (sampleMeta 0)), .crash (.add (sampleMeta 1)) 0 10, .reopen,
    .call (.add (sampleMeta 2))]

/-- **A torn frame hides a later addition**: the last call returned, but its segment is in no list
a later `Manifest.open` holds. -/
theorem torn_frame_hides_add :
    (Run.from (step plainExternals) {} tornMiddleRun).outcomes =
        [.done (.add (sampleMeta 0)), .interrupted (.add (sampleMeta 1)),
          .done (.add (sampleMeta 2))] ∧
      ¬ ∃ m, (openManifest plainExternals
          (Run.from (step plainExternals) {} tornMiddleRun).fs).1 = .ok m ∧
        m.segments ∈ possible (Run.from (step plainExternals) {} tornMiddleRun).outcomes := by
  have hopen : (openManifest plainExternals
      (Run.from (step plainExternals) {} tornMiddleRun).fs).1.toOption.map Manifest.segments =
      some [sampleMeta 0] := by decide +kernel
  have hposs : [sampleMeta 0] ∉
      possible (Run.from (step plainExternals) {} tornMiddleRun).outcomes := by decide +kernel
  refine ⟨by decide +kernel, ?_⟩
  rintro ⟨m, hm, hmem⟩
  rw [hm] at hopen
  simp only [Except.toOption, Option.map_some, Option.some.injEq] at hopen
  exact hposs (hopen ▸ hmem)

end ManifestRun
