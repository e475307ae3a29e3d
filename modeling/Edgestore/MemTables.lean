import Edgestore.Engine.PrefixScan

/-!
# The memtables

There are three memtables: two with the same body over a map with the interface of the `BTreeMap` of the standard
library, which is one of these maps, and one over a concurrent map, which scans with a callback and does not
count its entries. The two maps from outside are given by what is documented of them: they are ordered maps. In a
range whose start is above its end the `BTreeMap` panics, unless it is empty, and the concurrent map panics. What
the other map does there is left open.

## Main definitions

* `OrderedMap`, `ConcurrentMap`: the maps, each with the sorted map that it stands for
* `btreeMap`: the map of the standard library
* `MemTableImpl`: an implementation of the trait `MemTable`
* `simpleMemTable`, `bbtreeConcurrentMemTable`: the implementations
* `MemCall`: the calls of the trait
* `MemTableImpl.run`, `referenceRun`: what the calls of a run return, and what they should return

## Main results

* `run_of_simulates`: tables that simulate sorted maps return what they should
* `btree_run_iff`: the default table before there was a concurrent one fails when an inverted range meets entries
* `tables_agree_iff`: the three tables agree on a run if and only if no range is inverted
-/

/-! ### Bounds -/

/-- An end of a range. -/
inductive KeyBound
  | included (k : Bytes)
  | excluded (k : Bytes)
  | unbounded

/-- A key is not below the start of a range. -/
def KeyBound.Starts : KeyBound → Bytes → Prop
  | .included a, k => a ≤ k
  | .excluded a, k => a < k
  | .unbounded, _ => True

/-- A key is not above the end of a range. -/
def KeyBound.Ends : KeyBound → Bytes → Prop
  | .included b, k => k ≤ b
  | .excluded b, k => k < b
  | .unbounded, _ => True

instance : ∀ lo k, Decidable (KeyBound.Starts lo k)
  | .included a, k => inferInstanceAs (Decidable (a ≤ k))
  | .excluded a, k => inferInstanceAs (Decidable (a < k))
  | .unbounded, _ => .isTrue trivial

instance : ∀ hi k, Decidable (KeyBound.Ends hi k)
  | .included b, k => inferInstanceAs (Decidable (k ≤ b))
  | .excluded b, k => inferInstanceAs (Decidable (k < b))
  | .unbounded, _ => .isTrue trivial

/-- The key of a bound. -/
def KeyBound.key : KeyBound → Option Bytes
  | .included k => some k
  | .excluded k => some k
  | .unbounded => none

/-- The start of a range is above its end. -/
def Inverted (lo hi : KeyBound) : Prop := ∃ a ∈ lo.key, ∃ b ∈ hi.key, b < a

instance (lo hi : KeyBound) : Decidable (Inverted lo hi) :=
  inferInstanceAs (Decidable (∃ a ∈ lo.key, ∃ b ∈ hi.key, b < a))

/-- The entries of a sorted map in a range. -/
def entriesIn (m : MemTable) (lo hi : KeyBound) : List (Bytes × MemEntry) :=
  m.entries.filter fun p => lo.Starts p.1 ∧ hi.Ends p.1

/-! ### Maps -/

/-- A map with the interface of the standard one, and the sorted map that it stands for. -/
structure OrderedMap where
  Map : Type
  new : Map
  insert : Map → Bytes → MemEntry → Map
  get : Map → Bytes → Option MemEntry
  range : Map → KeyBound → KeyBound → Except EdgestoreError (List (Bytes × MemEntry))
  iter : Map → List (Bytes × MemEntry)
  len : Map → ℕ
  clear : Map → Map
  view : Map → MemTable
  view_new : view new = .empty
  view_insert : ∀ m k v, view (insert m k v) = (view m).insert k v
  view_clear : ∀ m, view (clear m) = .empty
  get_eq : ∀ m k, get m k = (view m).get k
  iter_eq : ∀ m, iter m = (view m).entries
  len_eq : ∀ m, len m = (view m).entries.length
  range_included_excluded : ∀ m a b, ¬ b < a →
    range m (.included a) (.excluded b) = .ok (entriesIn (view m) (.included a) (.excluded b))
  range_included_unbounded : ∀ m a,
    range m (.included a) .unbounded = .ok (entriesIn (view m) (.included a) .unbounded)

/-- What a scan goes on with: the state of the callback, and whether it is to stop. -/
inductive ControlFlow (σ : Type)
  | «continue» (s : σ)
  | «break» (s : σ)

/-- Call back with entries, until it is to stop. -/
def visit {σ : Type} (f : σ → Bytes × MemEntry → ControlFlow σ) : σ → List (Bytes × MemEntry) → σ
  | s, [] => s
  | s, p :: ps =>
    match f s p with
    | .continue s' => visit f s' ps
    | .break s' => s'

/-- A concurrent map, which does not count its entries, and the sorted map that it stands for. An insertion
returns the value that it replaces, and fails only when the allocator does, which it is taken not to do. -/
structure ConcurrentMap where
  Map : Type
  new : Map
  insert : Map → Bytes → MemEntry → Except Unit (Option MemEntry × Map)
  getCloned : Map → Bytes → Option MemEntry
  scan : Map → KeyBound → KeyBound →
    (List (Bytes × MemEntry) → Bytes × MemEntry → ControlFlow (List (Bytes × MemEntry))) →
      List (Bytes × MemEntry) → Except EdgestoreError (List (Bytes × MemEntry))
  view : Map → MemTable
  view_new : view new = .empty
  insert_eq : ∀ m k v, ∃ m', insert m k v = .ok ((view m).get k, m') ∧ view m' = (view m).insert k v
  getCloned_eq : ∀ m k, getCloned m k = (view m).get k
  scan_eq : ∀ m lo hi f s, ¬ Inverted lo hi → scan m lo hi f s = .ok (visit f s (entriesIn (view m) lo hi))
  scan_inverted : ∀ m lo hi f s, Inverted lo hi → ∃ err, scan m lo hi f s = .error err

/-- The range of the map of the standard library. -/
def btreeRange (m : MemTable) (lo hi : KeyBound) : Except EdgestoreError (List (Bytes × MemEntry)) :=
  -- an empty map has no root to search from, and its bounds are not looked at
  if m.isEmpty then .ok []
  else match lo, hi with
    | .excluded a, .excluded b =>
      if a = b then .error (.panicked "range start and end are equal and excluded in BTreeMap")
      else if b < a then .error (.panicked "range start is greater than range end in BTreeMap")
      else .ok (entriesIn m lo hi)
    | lo, hi =>
      match lo.key, hi.key with
      | some a, some b =>
        if b < a then .error (.panicked "range start is greater than range end in BTreeMap")
        else .ok (entriesIn m lo hi)
      | _, _ => .ok (entriesIn m lo hi)

theorem entriesIn_of_isEmpty {m : MemTable} (h : m.isEmpty = true) (lo hi : KeyBound) : entriesIn m lo hi = [] := by
  rw [entriesIn, MemTable.isEmpty_iff.mp h, List.filter_nil]

theorem btreeRange_of_isEmpty {m : MemTable} (h : m.isEmpty = true) (lo hi : KeyBound) :
    btreeRange m lo hi = .ok (entriesIn m lo hi) := by
  rw [entriesIn_of_isEmpty h]
  exact if_pos h

theorem btreeRange_included_excluded (m : MemTable) {a b : Bytes} (h : ¬ b < a) :
    btreeRange m (.included a) (.excluded b) = .ok (entriesIn m (.included a) (.excluded b)) := by
  by_cases hempty : m.isEmpty = true
  · exact btreeRange_of_isEmpty hempty _ _
  · exact (if_neg hempty).trans (if_neg h)

theorem btreeRange_included_unbounded (m : MemTable) (a : Bytes) :
    btreeRange m (.included a) .unbounded = .ok (entriesIn m (.included a) .unbounded) := by
  by_cases hempty : m.isEmpty = true
  · exact btreeRange_of_isEmpty hempty _ _
  · exact if_neg hempty

theorem btreeRange_inverted {m : MemTable} (hempty : ¬ m.isEmpty = true) {a b : Bytes} (h : b < a) :
    btreeRange m (.included a) (.excluded b) =
      .error (.panicked "range start is greater than range end in BTreeMap") :=
  (if_neg hempty).trans (if_pos h)

/-- The map of the standard library. -/
def btreeMap : OrderedMap where
  Map := MemTable
  new := .empty
  insert := SortedMap.insert
  get := SortedMap.get
  range := btreeRange
  iter := fun m => m.entries
  len := fun m => m.entries.length
  clear := fun _ => .empty
  view := id
  view_new := rfl
  view_insert := fun _ _ _ => rfl
  view_clear := fun _ => rfl
  get_eq := fun _ _ => rfl
  iter_eq := fun _ => rfl
  len_eq := fun _ => rfl
  range_included_excluded := fun m _ _ h => btreeRange_included_excluded m h
  range_included_unbounded := btreeRange_included_unbounded

/-! ### The tables -/

/-- An implementation of the trait `MemTable`. A call may panic. -/
structure MemTableImpl where
  State : Type
  new : State
  insert : State → Bytes → MemEntry → Except EdgestoreError State
  get : State → Bytes → Option MemEntry
  range : State → Bytes → Bytes → Except EdgestoreError (List (Bytes × MemEntry))
  prefixEntries : State → Bytes → Except EdgestoreError (List (Bytes × MemEntry))
  iter : State → Except EdgestoreError (List (Bytes × MemEntry))
  len : State → ℕ
  clear : State → State

/-- Whether a table is empty. -/
def MemTableImpl.isEmpty (T : MemTableImpl) (s : T.State) : Bool := T.len s = 0

/-- The memtable over a map with the interface of the standard one. -/
def simpleMemTable (M : OrderedMap) : MemTableImpl where
  State := M.Map
  new := M.new
  insert := fun m k v => .ok (M.insert m k v)
  get := M.get
  range := fun m start «end» => M.range m (.included start) (.excluded «end»)
  prefixEntries := fun m p =>
    (M.range m (.included p) .unbounded).map fun ps => ps.takeWhile fun q => p.isPrefixOf q.1
  iter := fun m => .ok (M.iter m)
  len := M.len
  clear := M.clear

/-- The default memtable before there was a concurrent one. -/
def btreeMemTable : MemTableImpl := simpleMemTable btreeMap

/-- The memtable over a B-tree from outside. -/
def bbtreeMemTable (M : OrderedMap) : MemTableImpl := simpleMemTable M

/-- The memtable over a concurrent B-tree from outside, with a count of its entries. -/
def bbtreeConcurrentMemTable (C : ConcurrentMap) : MemTableImpl where
  State := C.Map × ℕ
  new := (C.new, 0)
  insert := fun s k v =>
    match C.insert s.1 k v with
    | .ok (none, m) => .ok (m, s.2 + 1)
    | .ok (some _, m) => .ok (m, s.2)
    | .error _ => .error (.panicked "BBTreeConcurrentMemTable: allocation failed")
  get := fun s k => C.getCloned s.1 k
  range := fun s start «end» =>
    C.scan s.1 (.included start) (.excluded «end») (fun results p => .continue (results ++ [p])) []
  prefixEntries := fun s pre =>
    C.scan s.1 (.included pre) .unbounded (fun results p =>
      if !pre.isPrefixOf p.1 then .break results else .continue (results ++ [p])) []
  iter := fun s => C.scan s.1 .unbounded .unbounded (fun results p => .continue (results ++ [p])) []
  len := fun s => s.2
  clear := fun _ => (C.new, 0)

/-! ### Runs -/

/-- The calls of the trait. -/
inductive MemCall
  | insert (key : Bytes) (entry : MemEntry)
  | clear
  | get (key : Bytes)
  | range (start «end» : Bytes)
  | prefixEntries (p : Bytes)
  | iter
  | len
  | isEmpty

/-- A range whose start is above its end. -/
def MemCall.Inverted : MemCall → Prop
  | .range start «end» => «end» < start
  | _ => False

/-- What a call returns. -/
inductive MemAnswer
  | unit
  | entry (e : Option MemEntry)
  | entries (ps : List (Bytes × MemEntry))
  | count (n : ℕ)
  | flag (b : Bool)
  deriving DecidableEq

/-- A call on a table. -/
def MemTableImpl.call (T : MemTableImpl) (s : T.State) : MemCall → Except EdgestoreError (MemAnswer × T.State)
  | .insert k v => (T.insert s k v).map fun s' => (.unit, s')
  | .clear => .ok (.unit, T.clear s)
  | .get k => .ok (.entry (T.get s k), s)
  | .range start «end» => (T.range s start «end»).map fun ps => (.entries ps, s)
  | .prefixEntries p => (T.prefixEntries s p).map fun ps => (.entries ps, s)
  | .iter => (T.iter s).map fun ps => (.entries ps, s)
  | .len => .ok (.count (T.len s), s)
  | .isEmpty => .ok (.flag (T.isEmpty s), s)

/-- What the calls of a run return from a state on, unless one of them panics. -/
def MemTableImpl.runFrom (T : MemTableImpl) (s : T.State) : List MemCall → Except EdgestoreError (List MemAnswer)
  | [] => .ok []
  | c :: cs =>
    match T.call s c with
    | .ok (a, s') => (T.runFrom s' cs).map fun as => a :: as
    | .error err => .error err

/-- What the calls of a run return. -/
def MemTableImpl.run (T : MemTableImpl) (calls : List MemCall) : Except EdgestoreError (List MemAnswer) :=
  T.runFrom T.new calls

/-- A call on the reference: a sorted map. -/
def referenceCall (m : MemTable) : MemCall → MemAnswer × MemTable
  | .insert k v => (.unit, m.insert k v)
  | .clear => (.unit, .empty)
  | .get k => (.entry (m.get k), m)
  | .range start «end» => (.entries (m.range start «end»), m)
  | .prefixEntries p => (.entries (m.prefixEntries p), m)
  | .iter => (.entries m.iter, m)
  | .len => (.count m.len, m)
  | .isEmpty => (.flag m.isEmpty, m)

/-- What the calls of a run return from a sorted map on. -/
def referenceRunFrom (m : MemTable) : List MemCall → List MemAnswer
  | [] => []
  | c :: cs => (referenceCall m c).1 :: referenceRunFrom (referenceCall m c).2 cs

/-- What the calls of a run should return. -/
def referenceRun (calls : List MemCall) : List MemAnswer := referenceRunFrom .empty calls

theorem runFrom_of_ok {T : MemTableImpl} {s : T.State} {c : MemCall} {p : MemAnswer × T.State}
    (h : T.call s c = .ok p) {cs : List MemCall} :
    T.runFrom s (c :: cs) = (T.runFrom p.2 cs).map fun as => p.1 :: as := by
  rw [MemTableImpl.runFrom, h]

theorem runFrom_of_error {T : MemTableImpl} {s : T.State} {c : MemCall} {err : EdgestoreError}
    (h : T.call s c = .error err) {cs : List MemCall} : T.runFrom s (c :: cs) = .error err := by
  rw [MemTableImpl.runFrom, h]

/-! ### Simulation -/

/-- A table does what a sorted map does, except in a range whose start is above its end. -/
structure Simulates (T : MemTableImpl) (R : T.State → MemTable → Prop) : Prop where
  new : R T.new .empty
  call : ∀ {s m c}, R s m → ¬ c.Inverted →
    ∃ s', T.call s c = .ok ((referenceCall m c).1, s') ∧ R s' (referenceCall m c).2

theorem runFrom_of_simulates {T : MemTableImpl} {R : T.State → MemTable → Prop} (h : Simulates T R)
    {calls : List MemCall} (hcalls : ∀ c ∈ calls, ¬ c.Inverted) {s : T.State} {m : MemTable} (hs : R s m) :
    T.runFrom s calls = .ok (referenceRunFrom m calls) := by
  induction calls generalizing s m with
  | nil => rfl
  | cons c cs ih =>
    obtain ⟨s', hcall, hs'⟩ := h.call hs (hcalls c List.mem_cons_self)
    have hrest := ih (fun c' hc' => hcalls c' (List.mem_cons_of_mem _ hc')) hs'
    rw [runFrom_of_ok hcall, hrest]
    rfl

/-- **A table that simulates sorted maps** returns what it should. -/
theorem run_of_simulates {T : MemTableImpl} {R : T.State → MemTable → Prop} (h : Simulates T R)
    {calls : List MemCall} (hcalls : ∀ c ∈ calls, ¬ c.Inverted) : T.run calls = .ok (referenceRun calls) :=
  runFrom_of_simulates h hcalls h.new

theorem entriesIn_included_excluded (m : MemTable) (start «end» : Bytes) :
    entriesIn m (.included start) (.excluded «end») = m.range start «end» := rfl

theorem takeWhile_entriesIn (m : MemTable) (p : Bytes) :
    ((entriesIn m (.included p) .unbounded).takeWhile fun q => p.isPrefixOf q.1) = m.prefixEntries p := by
  have hfrom : entriesIn m (.included p) .unbounded = m.entries.filter fun q => p ≤ q.1 := by
    unfold entriesIn
    congr 1
    funext q
    simp [KeyBound.Starts, KeyBound.Ends]
  rw [hfrom]
  rfl

theorem entriesIn_unbounded (m : MemTable) : entriesIn m .unbounded .unbounded = m.entries :=
  List.filter_eq_self.mpr fun _ _ => decide_eq_true ⟨trivial, trivial⟩

theorem simulates_simpleMemTable (M : OrderedMap) : Simulates (simpleMemTable M) fun s m => M.view s = m where
  new := M.view_new
  call := by
    rintro s m c rfl hc
    cases c with
    | insert k v => exact ⟨M.insert s k v, rfl, M.view_insert s k v⟩
    | clear => exact ⟨M.clear s, rfl, M.view_clear s⟩
    | get k => exact ⟨s, congrArg (fun e => Except.ok (MemAnswer.entry e, s)) (M.get_eq s k), rfl⟩
    | range start «end» =>
      exact ⟨s, congrArg (Except.map fun ps => (MemAnswer.entries ps, s))
        (M.range_included_excluded s start «end» hc), rfl⟩
    | prefixEntries p =>
      have hprefix : (simpleMemTable M).prefixEntries s p = .ok ((M.view s).prefixEntries p) := by
        show (M.range s (.included p) .unbounded).map _ = _
        rw [M.range_included_unbounded s p]
        exact congrArg Except.ok (takeWhile_entriesIn (M.view s) p)
      exact ⟨s, congrArg (Except.map fun ps => (MemAnswer.entries ps, s)) hprefix, rfl⟩
    | iter => exact ⟨s, congrArg (fun ps => Except.ok (MemAnswer.entries ps, s)) (M.iter_eq s), rfl⟩
    | len => exact ⟨s, congrArg (fun n => Except.ok (MemAnswer.count n, s)) (M.len_eq s), rfl⟩
    | isEmpty =>
      exact ⟨s, congrArg (fun n => Except.ok (MemAnswer.flag (decide (n = 0)), s)) (M.len_eq s), rfl⟩

/-! ### The concurrent table -/

/-- A callback that collects everything. -/
theorem visit_continue (ps results : List (Bytes × MemEntry)) :
    visit (fun results p => .continue (results ++ [p])) results ps = results ++ ps := by
  induction ps generalizing results with
  | nil => rw [visit, List.append_nil]
  | cons p ps ih =>
    show visit _ (results ++ [p]) ps = _
    rw [ih, List.append_assoc, List.singleton_append]

/-- A callback that collects up to the first entry without the prefix. -/
theorem visit_break (pre : Bytes) (ps results : List (Bytes × MemEntry)) :
    visit (fun results p => if !pre.isPrefixOf p.1 then .break results else .continue (results ++ [p]))
      results ps = results ++ ps.takeWhile fun p => pre.isPrefixOf p.1 := by
  induction ps generalizing results with
  | nil => rw [visit, List.takeWhile_nil, List.append_nil]
  | cons p ps ih =>
    rw [visit, List.takeWhile_cons]
    cases pre.isPrefixOf p.1 with
    | false =>
      show results = _
      rw [if_neg Bool.false_ne_true, List.append_nil]
    | true =>
      show visit _ (results ++ [p]) ps = _
      rw [ih, if_pos rfl, List.append_assoc, List.singleton_append]

/-- A key that is new is one more entry, and one that is not is none. -/
theorem length_insert (m : MemTable) (k : Bytes) (v : MemEntry) :
    (m.insert k v).entries.length =
      if (m.get k).isSome then m.entries.length else m.entries.length + 1 := by
  have hinsert : ∀ l : List (Bytes × MemEntry), KeySorted l → (insertEntry k v l).length =
      if (find l k).isSome then l.length else l.length + 1 := by
    intro l
    induction l with
    | nil => exact fun _ => rfl
    | cons p l ih =>
      intro hs
      obtain ⟨hlt, hs'⟩ := keySorted_cons.mp hs
      rw [insertEntry, find_cons]
      split
      case isTrue hk =>
        -- the key is in front of all entries
        have hnone : find l k = none := find_eq_none_of_lt fun q hq => hk.trans (hlt q hq)
        rw [if_neg hk.ne', hnone]
        rfl
      case isFalse hk =>
        split
        case isTrue heq =>
          rw [if_pos heq.symm]
          rfl
        case isFalse hne =>
          have hne' : ¬ p.1 = k := fun h => hne h.symm
          rw [if_neg hne', List.length_cons, ih hs', List.length_cons]
          split <;> rfl
  exact hinsert m.entries m.sorted

/-- **The count of the concurrent table** is the number of its keys. -/
theorem simulates_concurrent (C : ConcurrentMap) : Simulates (bbtreeConcurrentMemTable C)
    fun s m => C.view s.1 = m ∧ s.2 = m.entries.length where
  new := ⟨C.view_new, rfl⟩
  call := by
    rintro ⟨s, n⟩ m c ⟨rfl, hn⟩ hc
    obtain rfl : n = (C.view s).entries.length := hn
    cases c with
    | insert k v =>
      obtain ⟨s', hinsert, hview⟩ := C.insert_eq s k v
      have hlen := length_insert (C.view s) k v
      have hcall : (bbtreeConcurrentMemTable C).insert (s, (C.view s).entries.length) k v =
          .ok (s', (C.view s').entries.length) := by
        simp only [bbtreeConcurrentMemTable, hinsert, hview, hlen]
        cases (C.view s).get k <;> rfl
      exact ⟨_, congrArg (Except.map _) hcall, hview, by rw [hview]; rfl⟩
    | clear => exact ⟨_, rfl, C.view_new, rfl⟩
    | get k =>
      refine ⟨_, ?_, rfl, rfl⟩
      show Except.ok (MemAnswer.entry (C.getCloned s k), _) = _
      rw [C.getCloned_eq]
      rfl
    | range start «end» =>
      refine ⟨_, ?_, rfl, rfl⟩
      show (C.scan s _ _ _ _).map _ = _
      rw [C.scan_eq, visit_continue, List.nil_append, entriesIn_included_excluded]
      · rfl
      · rintro ⟨a, ha, b, hb, hlt⟩
        cases ha
        cases hb
        exact hc hlt
    | prefixEntries p =>
      refine ⟨_, ?_, rfl, rfl⟩
      show (C.scan s _ _ _ _).map _ = _
      rw [C.scan_eq, visit_break, List.nil_append, takeWhile_entriesIn]
      · rfl
      · rintro ⟨a, -, b, hb, -⟩
        cases hb
    | iter =>
      refine ⟨_, ?_, rfl, rfl⟩
      show (C.scan s _ _ _ _).map _ = _
      rw [C.scan_eq, visit_continue, List.nil_append, entriesIn_unbounded]
      · rfl
      · rintro ⟨a, ha, -⟩
        cases ha
    | len => exact ⟨_, rfl, rfl, rfl⟩
    | isEmpty => exact ⟨_, rfl, rfl, rfl⟩

/-! ### Agreement -/

/-- The three tables return what they should in a run, and none of them panics. -/
def TablesAgree (M : OrderedMap) (C : ConcurrentMap) (calls : List MemCall) : Prop :=
  btreeMemTable.run calls = .ok (referenceRun calls) ∧
    (bbtreeMemTable M).run calls = .ok (referenceRun calls) ∧
    (bbtreeConcurrentMemTable C).run calls = .ok (referenceRun calls)

/-- A run in which a call fails in every state fails. -/
theorem runFrom_of_mem {T : MemTableImpl} {c : MemCall} (hfails : ∀ s, ∃ err, T.call s c = .error err)
    {calls : List MemCall} (hc : c ∈ calls) (s : T.State) : ∃ err, T.runFrom s calls = .error err := by
  induction calls generalizing s with
  | nil => cases hc
  | cons c' cs ih =>
    rcases List.mem_cons.mp hc with rfl | hc
    · obtain ⟨err, herr⟩ := hfails s
      exact ⟨err, runFrom_of_error herr⟩
    · cases hcall : T.call s c' with
      | error err => exact ⟨err, runFrom_of_error hcall⟩
      | ok r =>
        obtain ⟨err, hrest⟩ := ih hc r.2
        exact ⟨err, by rw [runFrom_of_ok hcall, hrest]; rfl⟩

/-- The concurrent table panics in a range whose start is above its end, also when it is empty. -/
theorem call_concurrent_inverted (C : ConcurrentMap) {c : MemCall} (hinv : c.Inverted)
    (s : (bbtreeConcurrentMemTable C).State) : ∃ err, (bbtreeConcurrentMemTable C).call s c = .error err := by
  cases c with
  | range start «end» =>
    obtain ⟨err, herr⟩ := C.scan_inverted s.1 (.included start) (.excluded «end»)
      (fun results p => .continue (results ++ [p])) [] ⟨start, rfl, «end», rfl, hinv⟩
    exact ⟨err, congrArg (Except.map fun ps => (MemAnswer.entries ps, s)) herr⟩
  | _ => exact hinv.elim

/-- **The three tables agree** on a run, whatever the map of the second one does with inverted ranges, if and
only if no range of the run has its start above its end. -/
theorem tables_agree_iff (M : OrderedMap) (C : ConcurrentMap) (calls : List MemCall) :
    TablesAgree M C calls ↔ ∀ c ∈ calls, ¬ c.Inverted := by
  constructor
  · rintro ⟨-, -, hconcurrent⟩ c hc hinv
    obtain ⟨err, herr⟩ := runFrom_of_mem (call_concurrent_inverted C hinv) hc (bbtreeConcurrentMemTable C).new
    rw [MemTableImpl.run, herr] at hconcurrent
    cases hconcurrent
  · intro h
    exact ⟨run_of_simulates (simulates_simpleMemTable btreeMap) h,
      run_of_simulates (simulates_simpleMemTable M) h, run_of_simulates (simulates_concurrent C) h⟩

/-- Every inverted range of a run is asked of an empty table. -/
def InvertedOnEmpty (m : MemTable) : List MemCall → Prop
  | [] => True
  | c :: cs => (c.Inverted → m.isEmpty = true) ∧ InvertedOnEmpty (referenceCall m c).2 cs

/-- What the table over the map of the standard library does in one call. -/
theorem btree_call (m : MemTable) (c : MemCall) :
    ((c.Inverted → m.isEmpty = true) → btreeMemTable.call m c = .ok (referenceCall m c)) ∧
      (¬ (c.Inverted → m.isEmpty = true) → ∃ err, btreeMemTable.call m c = .error err) := by
  by_cases hinv : c.Inverted
  case neg =>
    refine ⟨fun _ => ?_, fun h => (h fun hc => (hinv hc).elim).elim⟩
    obtain ⟨s', hcall, hs'⟩ := (simulates_simpleMemTable btreeMap).call (s := m) rfl hinv
    obtain rfl : s' = (referenceCall m c).2 := hs'
    exact hcall
  case pos =>
    cases c with
    | range start «end» =>
      constructor
      · intro h
        -- the bounds are not looked at
        have hrange : btreeRange m (.included start) (.excluded «end») = .ok (m.range start «end») :=
          btreeRange_of_isEmpty (h hinv) _ _
        exact congrArg (Except.map fun ps => (MemAnswer.entries ps, m)) hrange
      · intro h
        have hempty : ¬ m.isEmpty = true := fun he => h fun _ => he
        exact ⟨_, congrArg (Except.map fun ps => (MemAnswer.entries ps, m)) (btreeRange_inverted hempty hinv)⟩
    | _ => exact hinv.elim

/-- **The table over the map of the standard library** returns what it should if and only if no inverted range of
the run meets an entry. -/
theorem btree_run_iff (calls : List MemCall) :
    btreeMemTable.run calls = .ok (referenceRun calls) ↔ InvertedOnEmpty .empty calls := by
  have hfrom : ∀ m : MemTable, btreeMemTable.runFrom m calls = .ok (referenceRunFrom m calls) ↔ InvertedOnEmpty m calls := by
    induction calls with
    | nil => exact fun m => iff_of_true rfl trivial
    | cons c cs ih =>
      intro m
      by_cases hc : c.Inverted → m.isEmpty = true
      · have hstep : btreeMemTable.runFrom m (c :: cs) =
            (btreeMemTable.runFrom (referenceCall m c).2 cs).map fun as => (referenceCall m c).1 :: as :=
          runFrom_of_ok ((btree_call m c).1 hc)
        have hrest := ih (referenceCall m c).2
        rw [hstep, InvertedOnEmpty, and_iff_right hc, ← hrest, referenceRunFrom]
        cases btreeMemTable.runFrom (referenceCall m c).2 cs with
        | error err => exact iff_of_false (fun h => by cases h) (fun h => by cases h)
        | ok answers =>
          constructor
          · intro h
            cases h
            rfl
          · intro h
            cases h
            rfl
      · obtain ⟨err, herr⟩ := (btree_call m c).2 hc
        have hstep : btreeMemTable.runFrom m (c :: cs) = .error err := runFrom_of_error herr
        rw [hstep]
        exact iff_of_false (fun h => by cases h) (fun h => hc h.1)
  exact hfrom .empty

/-- A concurrent map that is a sorted map, and that panics in an inverted range. -/
def sortedConcurrentMap : ConcurrentMap where
  Map := MemTable
  new := .empty
  insert := fun m k v => .ok (m.get k, m.insert k v)
  getCloned := SortedMap.get
  scan := fun m lo hi f s =>
    if Inverted lo hi then .error (.panicked "range start is greater than range end")
    else .ok (visit f s (entriesIn m lo hi))
  view := id
  view_new := rfl
  insert_eq := fun m k v => ⟨m.insert k v, rfl, rfl⟩
  getCloned_eq := fun _ _ => rfl
  scan_eq := fun _ _ _ _ _ h => if_neg h
  scan_inverted := fun _ _ _ _ _ h => ⟨_, if_pos h⟩

/-- **A range from `b` to `a`** of a table that holds `a` panics, in the table over the map of the standard library
and in the concurrent one. The concurrent one panics also when it is empty. -/
theorem tables_disagree :
    btreeMemTable.run [.insert [97] ⟨[97], some [1], .put, 1, 0, 0⟩, .range [98] [97]] =
        .error (.panicked "range start is greater than range end in BTreeMap") ∧
      (∃ err, (bbtreeConcurrentMemTable sortedConcurrentMap).run [.range [98] [97]] = .error err) ∧
      ¬ TablesAgree btreeMap sortedConcurrentMap
        [.insert [97] ⟨[97], some [1], .put, 1, 0, 0⟩, .range [98] [97]] := by
  refine ⟨rfl, ⟨_, rfl⟩, fun h => ?_⟩
  have hrun := h.1
  cases hrun
