import Edgestore.Lib.Bytes
import Edgestore.Lib.Prog
import Mathlib.Logic.Function.Basic

/-!
# A directory of byte files

A device whose state is a directory: byte files under names of any type. The effects are the system
calls that change it. A process that stops inside a write leaves a prefix of it; the other calls
take place as a whole or not at all.

There are two ways to put a file under a name. `write` opens the file and fills it, so that a crash
leaves any prefix of the content under the name. `replace` fills a temporary file first and renames
it, so that a crash leaves the file that was there or the new one.

## Main definitions

* `Directory.Effect`, `directory`: the effects and the device
* `Directory.write`, `Directory.replace`: the two ways to put a file

## Main results

* `Directory.cut_replace`: what a crash in the second leaves
* `Directory.cut_congr`, `Directory.cut_of_notMem`: what writes make of one file
-/

namespace Directory

/-- The system calls that change a directory. `create` truncates a file that exists; `append` is a
write at the end of a file. -/
inductive Effect (N : Type)
  | create (n : N)
  | append (n : N) (bs : Bytes)
  | rename (src dst : N)
  | unlink (n : N)
  deriving DecidableEq, Repr

/-- The contents of a directory. -/
abbrev Files (N : Type) := N → Option Bytes

variable {N : Type} [DecidableEq N]

/-- A call that takes place as a whole. -/
def apply : Effect N → Files N → Files N
  | .create n, d => Function.update d n (some [])
  | .append n bs, d => Function.update d n (some ((d n).getD [] ++ bs))
  | .rename src dst, d => Function.update (Function.update d dst (d src)) src none
  | .unlink n, d => Function.update d n none

/-- A call in which the process stops. Only a write can be half done. -/
def tear : Effect N → ℕ → Files N → Files N
  | .append n bs, m, d => apply (.append n (bs.take m)) d
  | .create _, _, d => d
  | .rename _ _, _, d => d
  | .unlink _, _, d => d

/-- The names a call changes something under. -/
def Effect.names : Effect N → List N
  | .create n => [n]
  | .append n _ => [n]
  | .rename src dst => [src, dst]
  | .unlink n => [n]

/-- **Frame**: a call leaves the files under other names alone. -/
theorem apply_of_notMem {e : Effect N} {k : N} (h : k ∉ e.names) (d : Files N) :
    apply e d k = d k := by
  cases e <;> simp_all [Effect.names, apply]

theorem tear_of_notMem {e : Effect N} {k : N} (h : k ∉ e.names) (m : ℕ) (d : Files N) :
    tear e m d k = d k := by
  cases e <;> simp_all [Effect.names, tear, apply]

end Directory

/-- Directories with files named in `N`. -/
abbrev directory (N : Type) [DecidableEq N] : Device where
  State := Directory.Files N
  Effect := Directory.Effect N
  apply := Directory.apply
  tear := Directory.tear

namespace Directory

variable {N : Type} [DecidableEq N] {S ε : Type}

/-- Open a file, truncated or new, and write its content. -/
def write (n : N) (bs : Bytes) : Prog (directory N) S ε Unit := do
  Prog.emit (.create n)
  Prog.emit (.append n bs)

/-- Write a temporary file and rename it. -/
def replace (tmp n : N) (bs : Bytes) : Prog (directory N) S ε Unit := do
  write tmp bs
  Prog.emit (.rename tmp n)

/-- The effects of `write`. -/
def writeEffects (n : N) (bs : Bytes) : List (Effect N) := [.create n, .append n bs]

/-- The effects of `replace`. -/
def replaceEffects (tmp n : N) (bs : Bytes) : List (Effect N) :=
  [.create tmp, .append tmp bs, .rename tmp n]

section

variable (tmp n : N) (bs : Bytes) (s : S) (d : Files N)

@[simp] theorem write_run :
    (write n bs : Prog (directory N) S ε Unit).run s d = (.ok (), s, writeEffects n bs) := rfl

@[simp] theorem replace_run :
    (replace tmp n bs : Prog (directory N) S ε Unit).run s d = (.ok (), s, replaceEffects tmp n bs) := rfl

@[simp] theorem run_writeEffects :
    (directory N).run (writeEffects n bs) d = Function.update d n (some bs) := by
  simp [writeEffects, Device.run, apply]

end

variable (tmp n : N) (bs : Bytes) (d : Files N)

theorem run_replaceEffects {tmp n : N} (h : tmp ≠ n) :
    (directory N).run (replaceEffects tmp n bs) d =
      Function.update (Function.update d tmp none) n (some bs) := by
  simp [replaceEffects, Device.run, apply, Function.update_comm h]

/-- The rule for a replacement: its effects are guaranteed one by one, and the file is there. -/
theorem wp_replace {tmp n : N} {Q : Prog.Post (directory N) S ε Unit} {s : S} (h : tmp ≠ n)
    (hguar : ∀ e ∈ replaceEffects tmp n bs, ∀ d, Q.guar e d)
    (hok : Q.ok () s (Function.update (Function.update d tmp none) n (some bs))) :
    Prog.wp (replace tmp n bs) Q s d := by
  refine ⟨fun _ => ⟨hguar _ (by simp [replaceEffects]) _, fun _ =>
    ⟨hguar _ (by simp [replaceEffects]) _, fun _ =>
      ⟨hguar _ (by simp [replaceEffects]) _, trivial⟩⟩⟩, fun _ => ?_⟩
  exact (run_replaceEffects bs d h : _) ▸ hok

/-- **A crash in a replacement** leaves the file that was there or the new one. Only the temporary
file may be left half written. -/
theorem cut_replace {tmp n : N} (h : tmp ≠ n) (i m : ℕ) :
    ((directory N).cut (replaceEffects tmp n bs) i m d n = d n ∨
        (directory N).cut (replaceEffects tmp n bs) i m d n = some bs) ∧
      ∀ k, k ≠ tmp → k ≠ n → (directory N).cut (replaceEffects tmp n bs) i m d k = d k := by
  match i with
  | 0 => exact ⟨.inl rfl, fun k _ _ => rfl⟩
  | 1 =>
    refine ⟨.inl ?_, fun k hk _ => ?_⟩
    · simp [replaceEffects, Device.cut, tear, apply, h.symm]
    · simp [replaceEffects, Device.cut, tear, apply, hk]
  | 2 =>
    refine ⟨.inl ?_, fun k hk _ => ?_⟩
    · simp [replaceEffects, Device.cut, tear, apply, h.symm]
    · simp [replaceEffects, Device.cut, tear, apply, hk]
  | i + 3 =>
    refine ⟨.inr ?_, fun k hk hn => ?_⟩
    · simp [replaceEffects, Device.cut, apply, h.symm]
    · simp [replaceEffects, Device.cut, apply, hk, hn]

/-! ### One file -/

section

variable {d d' : Files N} {k : N} {es : List (Effect N)}

/-- A call that changes a file from what it was alone. -/
def Effect.IsWrite : Effect N → Prop
  | .rename _ _ => False
  | _ => True

/-- What writes leave of a file depends on that file alone. -/
theorem apply_congr {e : Effect N} (he : e.IsWrite) (h : d k = d' k) : apply e d k = apply e d' k := by
  cases e with
  | create n => simp only [apply, Function.update_apply, h]
  | append n bs =>
    simp only [apply, Function.update_apply]
    split
    case isTrue hk => rw [← hk, h]
    case isFalse => exact h
  | rename src dst => exact he.elim
  | unlink n => simp only [apply, Function.update_apply, h]

theorem run_congr (hes : ∀ e ∈ es, e.IsWrite) (h : d k = d' k) :
    (directory N).run es d k = (directory N).run es d' k := by
  induction es generalizing d d' with
  | nil => exact h
  | cons e es ih =>
    exact ih (fun e' he' => hes e' (List.mem_cons_of_mem _ he')) (apply_congr (hes e List.mem_cons_self) h)

theorem cut_congr (hes : ∀ e ∈ es, e.IsWrite) (h : d k = d' k) (n m : ℕ) :
    (directory N).cut es n m d k = (directory N).cut es n m d' k := by
  induction es generalizing d d' n with
  | nil => exact h
  | cons e es ih =>
    have he := hes e List.mem_cons_self
    cases n with
    | zero =>
      -- only a write of bytes can be half done
      cases e with
      | create n => exact h
      | append n bs => exact apply_congr (e := .append n (bs.take m)) trivial h
      | rename src dst => exact he.elim
      | unlink n => exact h
    | succ n => exact ih (fun e' he' => hes e' (List.mem_cons_of_mem _ he')) (apply_congr he h) n

/-- **Frame**: calls leave the files under other names alone, whole or cut short. -/
theorem run_of_notMem (hes : ∀ e ∈ es, k ∉ e.names) : (directory N).run es d k = d k := by
  induction es generalizing d with
  | nil => rfl
  | cons e es ih =>
    exact (ih fun e' he' => hes e' (List.mem_cons_of_mem _ he')).trans
      (apply_of_notMem (hes e List.mem_cons_self) d)

theorem cut_of_notMem (hes : ∀ e ∈ es, k ∉ e.names) (n m : ℕ) :
    (directory N).cut es n m d k = d k := by
  induction es generalizing d n with
  | nil => rfl
  | cons e es ih =>
    cases n with
    | zero => exact tear_of_notMem (hes e List.mem_cons_self) m d
    | succ n =>
      exact (ih (fun e' he' => hes e' (List.mem_cons_of_mem _ he')) n).trans
        (apply_of_notMem (hes e List.mem_cons_self) d)

end

end Directory
