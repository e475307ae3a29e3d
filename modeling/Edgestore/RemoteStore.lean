import Edgestore.Lib.Directory
import Edgestore.Lib.Run

/-!
# The remote store on a file system

Archived segments are files named by the hash of the segment. An upload writes a temporary file and
renames it. A conditional upload creates the file under its final name, which fails if the name is
taken, and then fills it: a call that is stopped in between leaves a part of the segment under a
name that from then on counts as uploaded.

## Main definitions

* `RemoteStore.upload`, `RemoteStore.uploadIfAbsent`, `RemoteStore.download`
* `RemoteStore.Publishes`: what a caller may conclude from an `Ok` of a conditional upload
* `RemoteStore.Fills`: a call is not stopped between the creation and the end of the file

## Main results

* `RemoteStore.publishes_of_fills`: where no call is stopped there, only whole objects are published
* `RemoteStore.creations_le_one`: a name is created once at most
-/

/-- The 64 hexadecimal digits of a hash. -/
def hashToHex (hash : Bytes) : String :=
  String.ofList (hash.flatMap fun b => [Nat.digitChar (b.val / 16), Nat.digitChar (b.val % 16)])

/-- An error of a remote store, with its message. -/
structure ReplicationError where
  message : String
  deriving DecidableEq, Repr

namespace RemoteStore

/-- The files of the store: `{hash}.seg` and `{hash}.tmp`. -/
inductive Name
  | seg (hash : Bytes)
  | tmp (hash : Bytes)
  deriving DecidableEq, Repr

/-- The contents of the store. -/
abbrev Objects := Directory.Files Name

/-- The methods of the store. It keeps nothing in memory. -/
abbrev Exec (α : Type) := Prog (directory Name) Unit ReplicationError α

/-! ### The methods -/

/-- Store data under a hash, unless something is stored there. -/
def upload (hash data : Bytes) : Exec Unit := do
  let objects ← Prog.disk
  if (objects (.seg hash)).isSome then return ()
  else Directory.replace (.tmp hash) (.seg hash) data

/-- Store data under a hash and say whether the name was free. The file is created under its final
name, and filled after that. -/
def uploadIfAbsent (hash data : Bytes) : Exec Bool := do
  let objects ← Prog.disk
  if (objects (.seg hash)).isSome then return false
  else
    Directory.write (.seg hash) data
    return true

/-- The data stored under a hash. -/
def download (objects : Objects) (hash : Bytes) : Except ReplicationError Bytes :=
  match objects (.seg hash) with
  | some data => .ok data
  | none => .error ⟨"segment not found: " ++ hashToHex hash⟩

/-! ### Calls -/

/-- The calls that store something. -/
inductive Op
  | upload (hash data : Bytes)
  | uploadIfAbsent (hash data : Bytes)
  deriving DecidableEq, Repr

/-- The hash a call is about. -/
@[simp] def Op.hash : Op → Bytes
  | .upload hash _ => hash
  | .uploadIfAbsent hash _ => hash

/-- The data a call stores. -/
@[simp] def Op.data : Op → Bytes
  | .upload _ data => data
  | .uploadIfAbsent _ data => data

/-- A call. `stop = some (n, m)` is an interruption after `n` effects and `m` bytes into the next:
a crash, or a failing system call. -/
structure Call where
  op : Op
  stop : Option (ℕ × ℕ) := none
  deriving DecidableEq, Repr

/-- The effects of a call that nothing interrupts. -/
def effects (objects : Objects) : Op → List (Directory.Effect Name)
  | .upload hash data => ((upload hash data).run () objects).2.2
  | .uploadIfAbsent hash data => ((uploadIfAbsent hash data).run () objects).2.2

/-- The store after a call. -/
def step (objects : Objects) (c : Call) : Objects :=
  match c.stop with
  | none => (directory Name).run (effects objects c.op) objects
  | some (n, m) => (directory Name).cut (effects objects c.op) n m objects

/-- The Boolean that a conditional upload returns with `Ok`. A call that is interrupted does not
return `Ok`. -/
def answer (objects : Objects) : Call → Option Bool
  | ⟨.uploadIfAbsent hash data, none⟩ => ((uploadIfAbsent hash data).run () objects).1.toOption
  | _ => none

/-- The data that calls upload under a hash. -/
def uploaded (hash : Bytes) (calls : List Call) : List Bytes :=
  (calls.filter fun c => c.op.hash = hash).map fun c => c.op.data

/-- How often `uploadIfAbsent` returns `Ok(true)` for a hash. -/
def creations (hash : Bytes) : Objects → List Call → ℕ
  | _, [] => 0
  | objects, c :: calls =>
    (if c.op.hash = hash ∧ answer objects c = some true then 1 else 0) +
      creations hash (step objects c) calls

/-- The store before anything is uploaded. -/
def empty : Objects := fun _ => none

/-- **Whole objects are published.** After a call that returned `Ok` a download gives the data of
an upload of that hash, whatever calls came in between; and a name is created once at most. -/
def Publishes (calls : List Call) : Prop :=
  (∀ pre c post, calls = pre ++ c :: post → answer (Run.from step empty pre) c ≠ none →
    ∃ data ∈ uploaded c.op.hash calls,
      download (Run.from step empty calls) c.op.hash = .ok data) ∧
  ∀ hash, creations hash empty calls ≤ 1

/-- The call is not stopped after it has created a file under its final name and before the last
byte is in it. -/
def Fills (objects : Objects) : Call → Prop
  | ⟨.uploadIfAbsent hash data, some (1, m)⟩ =>
    (objects (.seg hash)).isSome ∨ data.length ≤ m
  | _ => True

instance (objects : Objects) : ∀ c, Decidable (Fills objects c)
  | ⟨.uploadIfAbsent hash data, some (1, m)⟩ =>
    inferInstanceAs (Decidable ((objects (.seg hash)).isSome ∨ data.length ≤ m))
  | ⟨.uploadIfAbsent _ _, some (0, _)⟩ => .isTrue trivial
  | ⟨.uploadIfAbsent _ _, some (_ + 2, _)⟩ => .isTrue trivial
  | ⟨.uploadIfAbsent _ _, none⟩ => .isTrue trivial
  | ⟨.upload _ _, _⟩ => .isTrue trivial

/-! ### What a call does -/

variable {objects : Objects} {hash data : Bytes} {c : Call} {calls : List Call}

theorem effects_upload :
    effects objects (.upload hash data) = if (objects (.seg hash)).isSome then [] else
      Directory.replaceEffects (.tmp hash) (.seg hash) data := by
  by_cases h : (objects (.seg hash)).isSome
  · simp [effects, upload, Prog.disk, Bind.bind, Prog.bind, h, pure]
  · simp [effects, upload, Prog.disk, Bind.bind, Prog.bind, h]

theorem effects_uploadIfAbsent :
    effects objects (.uploadIfAbsent hash data) = if (objects (.seg hash)).isSome then [] else
      Directory.writeEffects (.seg hash) data := by
  by_cases h : (objects (.seg hash)).isSome
  · simp [effects, uploadIfAbsent, Prog.disk, Bind.bind, Prog.bind, h, pure]
  · simp [effects, uploadIfAbsent, Prog.disk, Bind.bind, Prog.bind, h, pure]

/-- A name that is taken makes both calls do nothing. -/
theorem step_of_stored (h : (objects (.seg c.op.hash)).isSome) : step objects c = objects := by
  have heffects : effects objects c.op = [] := by
    cases hop : c.op with
    | upload hash data => rw [effects_upload, if_pos (by simpa [hop] using h)]
    | uploadIfAbsent hash data => rw [effects_uploadIfAbsent, if_pos (by simpa [hop] using h)]
  unfold step
  rw [heffects]
  split <;> rfl

/-- **What a call can do** when the name is free. It leaves the other objects alone; and it stores
nothing, or its data, or, stopped while it fills the file, a prefix of its data. -/
theorem step_of_free (h : objects (.seg c.op.hash) = none) :
    (∀ hash, hash ≠ c.op.hash → step objects c (.seg hash) = objects (.seg hash)) ∧
      ((c.stop ≠ none ∧ step objects c (.seg c.op.hash) = none) ∨
        step objects c (.seg c.op.hash) = some c.op.data ∨
        ∃ hash data m, c = ⟨.uploadIfAbsent hash data, some (1, m)⟩ ∧
          step objects c (.seg hash) = some (data.take m)) := by
  match c, h with
  | ⟨.upload hash data, none⟩, h =>
    have hstep : step objects ⟨.upload hash data, none⟩ =
        Function.update (Function.update objects (.tmp hash) none) (.seg hash) (some data) := by
      rw [step, effects_upload, if_neg (by simpa using h)]
      exact Directory.run_replaceEffects _ _ Name.noConfusion
    rw [hstep]
    exact ⟨fun k hk => by simp [show k ≠ hash from hk], .inr (.inl (by simp))⟩
  | ⟨.upload hash data, some (n, m)⟩, h =>
    have hstep : step objects ⟨.upload hash data, some (n, m)⟩ =
        (directory Name).cut (Directory.replaceEffects (.tmp hash) (.seg hash) data) n m objects := by
      rw [step, effects_upload, if_neg (by simpa using h)]
    -- the temporary file may be torn, which nothing reads
    have hne : Name.tmp hash ≠ .seg hash := Name.noConfusion
    obtain ⟨hself, hother⟩ := Directory.cut_replace data objects hne n m
    rw [hstep]
    refine ⟨fun k hk => hother _ Name.noConfusion (by simpa using hk), ?_⟩
    rcases hself with hself | hself
    · exact .inl ⟨by simp, hself.trans h⟩
    · exact .inr (.inl hself)
  | ⟨.uploadIfAbsent hash data, none⟩, h =>
    have hstep : step objects ⟨.uploadIfAbsent hash data, none⟩ =
        Function.update objects (.seg hash) (some data) := by
      rw [step, effects_uploadIfAbsent, if_neg (by simpa using h)]
      exact Directory.run_writeEffects _ _ _
    rw [hstep]
    exact ⟨fun k hk => by simp [show k ≠ hash from hk], .inr (.inl (by simp))⟩
  | ⟨.uploadIfAbsent hash data, some (n, m)⟩, h =>
    have hstep : step objects ⟨.uploadIfAbsent hash data, some (n, m)⟩ =
        (directory Name).cut (Directory.writeEffects (.seg hash) data) n m objects := by
      rw [step, effects_uploadIfAbsent, if_neg (by simpa using h)]
    rw [hstep]
    match n with
    | 0 => exact ⟨fun _ _ => rfl, .inl ⟨by simp, h⟩⟩
    | 1 =>
      -- stopped inside the write: the file exists and holds the first `m` bytes
      refine ⟨fun k hk => ?_, .inr (.inr ⟨hash, data, m, rfl, ?_⟩)⟩
      · simp [Directory.writeEffects, Device.cut, Directory.tear, Directory.apply,
          show k ≠ hash from hk]
      · simp [Directory.writeEffects, Device.cut, Directory.tear, Directory.apply]
    | n + 2 =>
      refine ⟨fun k hk => ?_, .inr (.inl ?_)⟩
      · simp [Directory.writeEffects, Device.cut, Directory.apply, show k ≠ hash from hk]
      · simp [Directory.writeEffects, Device.cut, Directory.apply]

/-- An object that is stored stays as it is, whatever calls follow. -/
theorem step_keeps (h : (objects (.seg hash)).isSome) :
    step objects c (.seg hash) = objects (.seg hash) := by
  by_cases hc : (objects (.seg c.op.hash)).isSome
  · rw [step_of_stored hc]
  · refine (step_of_free (by simpa using hc)).1 hash ?_
    rintro rfl
    exact hc h

theorem from_keeps (h : (objects (.seg hash)).isSome) :
    Run.from step objects calls (.seg hash) = objects (.seg hash) := by
  induction calls generalizing objects with
  | nil => rfl
  | cons c calls ih =>
    have hstep : step objects c (.seg hash) = objects (.seg hash) := step_keeps h
    rw [Run.from_cons, ih (by rwa [hstep]), hstep]

/-- After a conditional upload that returned `Ok` there is something under the name. -/
theorem stored_of_answer (h : answer objects c ≠ none) :
    (step objects c (.seg c.op.hash)).isSome := by
  by_cases hc : (objects (.seg c.op.hash)).isSome
  · rwa [step_of_stored hc]
  · have hstop : c.stop = none := by
      match c, h with
      | ⟨.uploadIfAbsent _ _, none⟩, _ => rfl
    rcases (step_of_free (by simpa using hc)).2 with ⟨hne, -⟩ | hdata | ⟨_, _, _, rfl, -⟩
    · exact absurd hstop hne
    · rw [hdata]; rfl
    · simp at hstop

/-! ### Names are created once -/

theorem answer_of_stored (h : (objects (.seg c.op.hash)).isSome) : answer objects c ≠ some true := by
  match c, h with
  | ⟨.upload _ _, _⟩, _ => simp [answer]
  | ⟨.uploadIfAbsent _ _, some _⟩, _ => simp [answer]
  | ⟨.uploadIfAbsent hash data, none⟩, h =>
    have h' : (objects (.seg hash)).isSome := h
    simp [answer, uploadIfAbsent, Prog.disk, Bind.bind, Prog.bind, h', pure, Except.toOption]

theorem creations_of_stored (h : (objects (.seg hash)).isSome) : creations hash objects calls = 0 := by
  induction calls generalizing objects with
  | nil => rfl
  | cons c calls ih =>
    have hno : ¬ (c.op.hash = hash ∧ answer objects c = some true) := by
      rintro ⟨rfl, htrue⟩
      exact answer_of_stored h htrue
    rw [creations, if_neg hno, ih (by rwa [step_keeps h])]

/-- **A name is created once at most**, whatever is interrupted. -/
theorem creations_le_one : creations hash objects calls ≤ 1 := by
  induction calls generalizing objects with
  | nil => exact Nat.zero_le 1
  | cons c calls ih =>
    rw [creations]
    split
    case isTrue h =>
      obtain ⟨rfl, htrue⟩ := h
      rw [creations_of_stored (stored_of_answer (by simp [htrue]))]
    case isFalse => simpa using ih

/-! ### Whole objects -/

/-- Every object is the data of an upload under its hash. -/
def Whole (calls : List Call) (objects : Objects) : Prop :=
  ∀ hash data, objects (.seg hash) = some data → data ∈ uploaded hash calls

theorem mem_uploaded_append {post : List Call} (h : data ∈ uploaded hash calls) :
    data ∈ uploaded hash (calls ++ post) := by
  rw [uploaded, List.filter_append, List.map_append]
  exact List.mem_append_left _ h

/-- A call that is not stopped inside the file keeps every object whole. -/
theorem Whole.step (hw : Whole calls objects) (hf : Fills objects c) :
    Whole (calls ++ [c]) (step objects c) := by
  intro hash data hdata
  have hown : c.op.data ∈ uploaded c.op.hash (calls ++ [c]) := by
    simp [uploaded]
  by_cases hc : (objects (.seg c.op.hash)).isSome
  · rw [step_of_stored hc] at hdata
    exact mem_uploaded_append (hw _ _ hdata)
  obtain ⟨hother, hself⟩ := step_of_free (by simpa using hc)
  by_cases hne : hash = c.op.hash
  · subst hne
    rcases hself with ⟨-, hnone⟩ | hsome | ⟨hash', data', m, rfl, hcut⟩
    · rw [hnone] at hdata
      cases hdata
    · rw [hsome, Option.some.injEq] at hdata
      exact hdata ▸ hown
    · -- the write was not stopped before its end
      have hle : data'.length ≤ m := hf.resolve_left (by simpa using hc)
      rw [List.take_of_length_le hle] at hcut
      have : data' = data := Option.some.inj (hcut.symm.trans hdata)
      exact this ▸ hown
  · rw [hother _ hne] at hdata
    exact mem_uploaded_append (hw _ _ hdata)

theorem whole_from {pre : List Call} (hw : Whole pre objects)
    (hf : Run.All RemoteStore.step Fills objects calls) :
    Whole (pre ++ calls) (Run.from RemoteStore.step objects calls) := by
  induction calls generalizing objects pre with
  | nil => simpa using hw
  | cons c calls ih =>
    have := ih (hw.step hf.1) hf.2
    rwa [List.append_assoc] at this

/-- **Whole objects only.** Where no conditional upload is stopped between the creation of its file
and the end of it, an `Ok` of a conditional upload means that the whole data of an upload is stored,
and stays stored. -/
theorem publishes_of_fills (h : Run.All step Fills empty calls) : Publishes calls := by
  refine ⟨?_, fun _ => creations_le_one⟩
  rintro pre c post rfl hanswer
  have hnone : Whole [] empty := fun _ _ h => by cases h
  have hwhole : Whole ([] ++ (pre ++ c :: post)) (Run.from step empty (pre ++ c :: post)) :=
    whole_from hnone h
  obtain ⟨data, hdata⟩ := Option.isSome_iff_exists.mp (stored_of_answer hanswer)
  have hlater : Run.from step empty (pre ++ c :: post) (.seg c.op.hash) = some data := by
    rw [Run.from_append, Run.from_cons, from_keeps (stored_of_answer hanswer), hdata]
  exact ⟨data, hwhole _ _ hlater, by rw [download, hlater]⟩

/-- Two interrupted uploads, and the retries that complete them. -/
theorem publishes_retries :
    Publishes [⟨.upload (List.replicate 32 7) [1, 2], some (1, 1)⟩,
      ⟨.uploadIfAbsent (List.replicate 32 7) [1, 2], some (0, 0)⟩,
      ⟨.uploadIfAbsent (List.replicate 32 7) [1, 2], none⟩,
      ⟨.upload (List.replicate 32 7) [3], none⟩] :=
  publishes_of_fills (by decide)

/-- A conditional upload that is stopped after its first byte: the retry finds the name taken and
reports success, and a download gives the one byte. -/
theorem not_publishes_torn :
    ¬ Publishes [⟨.uploadIfAbsent (List.replicate 32 7) [1, 2], some (1, 1)⟩,
      ⟨.uploadIfAbsent (List.replicate 32 7) [1, 2], none⟩] := by
  intro h
  obtain ⟨data, hdata, hdown⟩ := h.1 [⟨.uploadIfAbsent (List.replicate 32 7) [1, 2], some (1, 1)⟩]
    ⟨.uploadIfAbsent (List.replicate 32 7) [1, 2], none⟩ [] rfl (by decide)
  -- the only data ever uploaded, and what is there
  have hwhole : data = [1, 2] := by simpa [uploaded] using hdata
  have hpart : (Except.ok [1] : Except ReplicationError Bytes) = .ok data := hdown
  rw [hwhole] at hpart
  cases hpart

end RemoteStore
