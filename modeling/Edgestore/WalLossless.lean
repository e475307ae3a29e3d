import Edgestore.WalRuns
import Edgestore.Lib.Pair
import Edgestore.PlainExternals

/-!
# What is appended is read back

A WAL file that ends at the end of a frame gains, with every record appended to it, that record for
its readers, if the record is within the limits of the format: its lengths fit their fields, and its
compressed payload is one the reader accepts. A record with a longer namespace is written with a
length that is cut to 16 bits, and is read as another record or as none; a payload beyond the
reader's limit stops the reader.

## Main definitions

* `FileAt X whole n fs`: a WAL file with a header, which ends at the end of a frame
* `Engine.KeepsFile X whole m`: programs of the engine that append behind whole frames only
* `ReadsBack X d`: readers find in every WAL file what was appended to it
* `World.Lossless X s c`: a call keeps it so, after every single effect

## Main results

* `read_frame_iff`: a record is read back from its frame iff it is within the limits
* `World.filesKept`: calls append to files with a header, and behind whole frames
* `World.lossless_run`: runs that append records within the limits, behind whole frames, are lossless,
  and the records of lossless runs are within the limits
-/

open FramedLog

variable {X : Externals} {fs : Fs} {bs : Bytes} {r : WalRecord} {n : Lsn} {e : Effect} {whole : Prop}

/-! ### Frames -/

/-- The reader of records goes no further than a payload beyond its limit. -/
theorem next_frame_long (hlong : maxCompressedLen < (X.compress (serializeRecord r)).length)
    (hlt : (X.compress (serializeRecord r)).length < 2 ^ 32) :
    next (walFormat X) (frame (walFormat X) r) = none := by
  have hfield : ofLe (((frame (walFormat X) r).drop 4).take 4) =
      (X.compress (serializeRecord r)).length := by
    rw [← ofLe_leBytes_of_lt (show (X.compress (serializeRecord r)).length < 256 ^ 4 by omega)]
    rfl
  have hmax : (walFormat X).maxLen < (X.compress (serializeRecord r)).length := hlong
  rw [next, hfield, if_neg (by rw [length_frame]; omega), if_pos hmax]

/-- What readers return is in range. -/
theorem inRange_of_mem_read {bs : Bytes} (h : r ∈ read (walFormat X) bs) : r.InRange := by
  induction hn : bs.length using Nat.strong_induction_on generalizing bs with
  | _ n ih =>
    cases hx : next (walFormat X) bs with
    | none =>
      rw [read_of_next_none hx] at h
      cases h
    | some p =>
      obtain ⟨x, rest⟩ := p
      rw [read_of_next hx, List.mem_append] at h
      rcases h with h | h
      · obtain rfl : x = some r := Option.mem_toList.mp h
        unfold next at hx
        split at hx
        · cases hx
        · split at hx
          · cases hx
          · split at hx
            · cases hx
            · simp only [Option.some.injEq, Prod.mk.injEq] at hx
              split at hx
              · obtain ⟨raw, -, hraw⟩ := Option.bind_eq_some_iff.mp hx.1
                cases hd : deserializeRecord raw with
                | error err =>
                  rw [hd] at hraw
                  cases hraw
                | ok r' =>
                  rw [hd] at hraw
                  cases hraw
                  exact .of_deserializeRecord hd
              · exact absurd hx.1 (by simp)
      · exact ih rest.length (hn ▸ next_length hx) h rfl

/-- **A record is read back** from its frame iff it is within the limits. -/
theorem read_frame_iff (hlt : (X.compress (serializeRecord r)).length < 2 ^ 32) :
    read (walFormat X) (frame (walFormat X) r) = [r] ↔ r.Fits X := by
  constructor
  · intro h
    refine ⟨@inRange_of_mem_read X r _ (by rw [h]; simp), ?_⟩
    by_contra hlong
    rw [read_of_next_none (next_frame_long (not_le.mp hlong) hlt)] at h
    cases h
  · intro h
    have := next_frame_append (fits_walFormat h) []
    rw [List.append_nil] at this
    rw [read_of_next this, read_of_next_none next_nil]
    rfl

/-! ### Files -/

theorem header_append (h : readAndValidateHeader bs = .ok ()) (x : Bytes) :
    readAndValidateHeader (bs ++ x) = .ok () := by
  unfold readAndValidateHeader at h ⊢
  split at h
  · cases h
  · next hlen =>
    have h4 : (bs ++ x).take 4 = bs.take 4 := List.take_append_of_le_length (by omega)
    have h1 : ((bs ++ x).drop 4).take 1 = (bs.drop 4).take 1 := by
      rw [List.drop_append_of_le_length (by omega), List.take_append_of_le_length]
      rw [List.length_drop]
      omega
    have hlen' : ¬ (bs ++ x).length < 8 := by
      rw [List.length_append]
      omega
    rw [h4, h1, if_neg hlen']
    exact h

theorem length_of_header (h : readAndValidateHeader bs = .ok ()) : walHeader.length ≤ bs.length := by
  unfold readAndValidateHeader at h
  split at h
  · cases h
  · next hlen => exact not_lt.mp hlen

/-- Behind a whole frame, readers go on with what is appended. -/
theorem fileRecords_append (h : readAndValidateHeader bs = .ok ()) (hc : WalClean X bs) (x : Bytes) :
    fileRecords X (bs ++ x) = fileRecords X bs ++ read (walFormat X) x ∧
      (residue (walFormat X) x = [] → WalClean X (bs ++ x)) := by
  have hdrop : (bs ++ x).drop walHeader.length = bs.drop walHeader.length ++ x :=
    List.drop_append_of_le_length (length_of_header h)
  obtain ⟨hread, hresidue⟩ := append_of_residue_nil hc x
  simp only [fileRecords, h, header_append h x, readRecords, WalClean, hdrop]
  exact ⟨hread, fun hx => hresidue.trans hx⟩

/-- A WAL file with a header, which ends, if it is `whole`, at the end of a frame. -/
def FileAt (X : Externals) (whole : Prop) (n : Lsn) (fs : Fs) : Prop :=
  ∃ bs, fs.wals.get n = some bs ∧ readAndValidateHeader bs = .ok () ∧ (whole → WalClean X bs)

/-- The discipline of effects on single WAL files: only new files are created, and records are
appended behind whole frames. -/
def AppendsBehindWhole (X : Externals) : Effect → Fs → Prop
  | .walCreate n, fs => fs.wals.get n = none
  | .walHeader n, fs => fs.wals.get n = some []
  | .walAppend n _, fs => FileAt X True n fs
  | _, _ => True

/-- A record that is appended behind a whole frame is within the limits of the format. -/
def FitsBehindWhole (X : Externals) : Effect → Fs → Prop
  | .walAppend n r, fs => FileAt X True n fs → r.Fits X
  | _, _ => True

theorem FileAt.congr {fs' : Fs} (h : FileAt X whole n fs) (hfs : fs'.wals = fs.wals) :
    FileAt X whole n fs' := by
  rw [FileAt, hfs]
  exact h

/-- A file with its header. -/
theorem fileAt_created :
    FileAt X whole n (applyEffect X (.walHeader n) (applyEffect X (.walCreate n) fs)) := by
  refine ⟨walHeader, ?_, readAndValidateHeader_walHeader [], fun _ => walClean_header⟩
  simp [applyEffect, Fs.appendWal]

/-- A record within the limits leaves a whole frame. -/
theorem FileAt.append (h : FileAt X True n fs) (hr : r.Fits X) :
    FileAt X True n (applyEffect X (.walAppend n r) fs) := by
  obtain ⟨bs, hget, hheader, hc⟩ := h
  refine ⟨bs ++ frame (walFormat X) r, ?_, header_append hheader _, fun _ => ?_⟩
  · simp [applyEffect, Fs.appendWal, hget]
  · refine (fileRecords_append hheader (hc trivial) _).2 ?_
    have hframes := @residue_frames _ (walFormat X) [r] (by simpa using fits_walFormat hr)
    rwa [frames_singleton] at hframes

/-! ### What was appended -/

/-- The records appended to each WAL file since it was created. -/
abbrev WalNotes := Lsn → List WalRecord

/-- Take note of an effect. -/
def noteAppend : Effect → WalNotes → WalNotes
  | .walCreate n, log => Function.update log n []
  | .walAppend n r, log => Function.update log n (log n ++ [r])
  | _, log => log

/-- Take note of an effect that is cut short: a record counts if its whole frame is written. -/
def noteTorn (X : Externals) : Effect → ℕ → WalNotes → WalNotes
  | .walAppend n r, m, log =>
    if (frame (walFormat X) r).length ≤ m then noteAppend (.walAppend n r) log else log
  | _, _, log => log

/-- The directory with notes about what was appended. -/
abbrev notedDisk (X : Externals) : Device := (disk X).noted noteAppend (noteTorn X)

/-- Readers find in every WAL file what was appended to it, in order. -/
def ReadsBack (X : Externals) (d : (notedDisk X).State) : Prop :=
  ∀ n bs, d.1.wals.get n = some bs → fileRecords X bs = d.2 n

section

variable {log : WalNotes}

/-- Appending bytes that readers read as `rs`. -/
theorem ReadsBack.appendWal (h : ReadsBack X (fs, log)) {x : Bytes} {rs : List WalRecord}
    (hx : ∀ bs, fs.wals.get n = some bs → fileRecords X (bs ++ x) = log n ++ rs)
    (hn : (fs.wals.get n).isSome) :
    ReadsBack X (fs.appendWal n x, Function.update log n (log n ++ rs)) := by
  obtain ⟨bs, hget⟩ := Option.isSome_iff_exists.mp hn
  intro n' bs' hget'
  simp only [Fs.appendWal, hget, Option.getD_some] at hget'
  by_cases hn' : n' = n
  · subst hn'
    rw [SortedMap.get_insert_self] at hget'
    cases hget'
    simp [hx bs hget]
  · rw [SortedMap.get_insert, if_neg (Ne.symm hn')] at hget'
    show fileRecords X bs' = Function.update log n (log n ++ rs) n'
    rw [Function.update_of_ne hn']
    exact h n' bs' hget'

theorem update_append_nil : Function.update log n (log n ++ []) = log := by
  rw [List.append_nil, Function.update_eq_self]

/-- Appending a header, or a part of it, to an empty file. -/
theorem ReadsBack.header (h : ReadsBack X (fs, log)) (hn : fs.wals.get n = some []) (m : ℕ) :
    ReadsBack X (fs.appendWal n (walHeader.take m), log) := by
  have hread : ∀ bs, fs.wals.get n = some bs →
      fileRecords X (bs ++ walHeader.take m) = log n ++ [] := by
    intro bs hget
    rw [hn] at hget
    cases hget
    have hempty : fileRecords X [] = log n := h n [] hn
    rw [List.nil_append, fileRecords_header_take, List.append_nil, ← hempty]
    exact (fileRecords_short (by simp [walHeader])).symm
  have := h.appendWal hread (by simp [hn])
  rwa [update_append_nil] at this

/-- **An effect** that keeps the discipline keeps what readers find. -/
theorem ReadsBack.apply (h : ReadsBack X (fs, log)) (he : AppendsBehindWhole X e fs)
    (hfits : FitsBehindWhole X e fs) : ReadsBack X ((notedDisk X).apply e (fs, log)) := by
  cases e with
  | walCreate n =>
    intro n' bs' hfile
    show fileRecords X bs' = Function.update log n [] n'
    have hget' : (fs.wals.insert n []).get n' = some bs' := hfile
    rw [SortedMap.get_insert] at hget'
    split at hget'
    case isTrue hn' =>
      subst hn'
      rw [Option.some.injEq] at hget'
      rw [Function.update_self, ← hget']
      exact fileRecords_short (by simp [walHeader])
    case isFalse hn' =>
      rw [Function.update_of_ne (Ne.symm hn')]
      exact h n' bs' hget'
  | walHeader n =>
    have := h.header he walHeader.length
    rwa [List.take_length] at this
  | walAppend n r =>
    obtain ⟨bs, hget, hheader, hc⟩ := he
    have hr : r.Fits X := hfits ⟨bs, hget, hheader, hc⟩
    refine h.appendWal (fun bs' hget' => ?_) (by simp [hget])
    rw [hget] at hget'
    cases hget'
    rw [(fileRecords_append hheader (hc trivial) _).1, h n bs hget]
    have hframe := next_frame_append (fits_walFormat hr) []
    rw [List.append_nil] at hframe
    rw [read_of_next hframe, read_of_next_none next_nil]
    rfl
  | walUnlink n =>
    intro n' bs' hfile
    have hget' : (fs.wals.erase n).get n' = some bs' := hfile
    rw [SortedMap.get_erase] at hget'
    split at hget'
    case isTrue => cases hget'
    case isFalse => exact h n' bs' hget'
  | _ => exact h

/-- **An effect that is cut short** keeps what readers find. -/
theorem ReadsBack.tear (h : ReadsBack X (fs, log)) (he : AppendsBehindWhole X e fs)
    (hfits : FitsBehindWhole X e fs) (m : ℕ) : ReadsBack X ((notedDisk X).tear e m (fs, log)) := by
  cases e with
  | walHeader n => exact h.header he m
  | walAppend n r =>
    by_cases hm : (frame (walFormat X) r).length ≤ m
    · have hnote : noteTorn X (.walAppend n r) m log = noteAppend (.walAppend n r) log := if_pos hm
      have htear : tearEffect X (.walAppend n r) m fs = applyEffect X (.walAppend n r) fs := by
        rw [tearEffect, List.take_of_length_le hm]
        rfl
      show ReadsBack X (tearEffect X (.walAppend n r) m fs, noteTorn X (.walAppend n r) m log)
      rw [hnote, htear]
      exact h.apply he hfits
    · have hnote : noteTorn X (.walAppend n r) m log = log := if_neg hm
      obtain ⟨bs, hget, hheader, hc⟩ := he
      have hr : r.Fits X := hfits ⟨bs, hget, hheader, hc⟩
      have htorn := next_frame_take (fits_walFormat hr) (not_le.mp hm)
      have hread : ∀ bs', fs.wals.get n = some bs' →
          fileRecords X (bs' ++ (frame (walFormat X) r).take m) = log n ++ [] := by
        intro bs' hget'
        rw [hget] at hget'
        cases hget'
        have hlog : fileRecords X bs = log n := h n bs hget
        rw [(fileRecords_append hheader (hc trivial) _).1, hlog, read_of_next_none htorn]
      have := h.appendWal hread (by simp [hget])
      rw [update_append_nil] at this
      show ReadsBack X (tearEffect X (.walAppend n r) m fs, noteTorn X (.walAppend n r) m log)
      rwa [hnote]
  | datWrite id dat => cases m <;> exact h
  | idxWrite id idx => cases m <;> exact h
  | xfWrite id xf => cases m <;> exact h
  | metaWrite id s => cases m <;> exact h
  | stageWrite hash dat => cases m <;> exact h
  | _ => exact h

/-- **A record that readers find** behind a whole file is within the limits. -/
theorem ReadsBack.fits (h : ReadsBack X (fs, log)) (he : FileAt X True n fs)
    (hafter : ReadsBack X ((notedDisk X).apply (.walAppend n r) (fs, log)))
    (hlt : (X.compress (serializeRecord r)).length < 2 ^ 32) : r.Fits X := by
  obtain ⟨bs, hget, hheader, hc⟩ := he
  have hbefore : fileRecords X bs = log n := h n bs hget
  have hread : fileRecords X (bs ++ frame (walFormat X) r) = log n ++ [r] := by
    refine (hafter n _ ?_).trans (Function.update_self ..)
    simp [applyEffect, Fs.appendWal, hget]
  rw [(fileRecords_append hheader (hc trivial) _).1, hbefore] at hread
  exact (read_frame_iff hlt).mp (List.append_cancel_left hread)

end

/-! ### Programs -/

theorem Effect.KeepsWal.behindWhole (h : e.KeepsWal) (fs : Fs) : AppendsBehindWhole X e fs := by
  cases e <;> first | exact h.elim | trivial

variable {σ α β : Type}

/-- Creating a WAL file. -/
theorem WalWriter.wp_create_file (whole : Prop) {config : EdgestoreConfig} {p : Process σ} :
    Prog.wp (WalWriter.create (X := X) n config)
      ⟨fun w q fs' => q.state = p.state ∧ w.name = n ∧ FileAt X whole n fs',
        fun _ q fs' => q.state = p.state ∧ fs' = fs, FitsBehindWhole X, AppendsBehindWhole X⟩ p fs := by
  simp only [WalWriter.create, Prog.wp_bind, Exec.wp_fs, Prog.wp_ite, Prog.wp_throw, Exec.wp_effect,
    Exec.wp_now, Prog.wp_pure]
  split
  case isTrue => exact ⟨trivial, trivial⟩
  case isFalse hfree =>
    have hnone : fs.wals.get n = none := Option.not_isSome_iff_eq_none.mp hfree
    refine fun _ => ⟨hnone, fun _ => ⟨SortedMap.get_insert_self .., trivial, trivial, ?_⟩⟩
    exact fileAt_created

/-- A program that leaves WAL files and a part of the state alone. -/
theorem wp_keepsFiles {T : Type} {g : σ → T} {m : Exec X σ α} {p : Process σ}
    (hf : Exec.Frame Effect.KeepsWal g m) :
    Prog.wp m
      ⟨fun _ q fs' => g q.state = g p.state ∧ fs'.wals = fs.wals,
        fun _ q fs' => g q.state = g p.state ∧ fs'.wals = fs.wals, FitsBehindWhole X,
        AppendsBehindWhole X⟩ p fs := by
  refine Prog.wp_inv (I := fun fs' : Fs => fs'.wals = fs.wals) ?_ (hf.wp _) rfl
  exact fun f d _ hf hd => ⟨hf.behindWhole d, (hf.wals d).trans hd⟩

namespace Engine

/-- A program that appends to files with a header only, behind whole frames. It leaves the current file
with a header, and whole if it was whole. -/
def KeepsFile (X : Externals) (whole : Prop) (m : Exec X Engine α) : Prop :=
  Prog.Keeps (fun p fs => FileAt X whole p.state.wal.name fs) (FitsBehindWhole X)
    (AppendsBehindWhole X) m

theorem keepsFile_of_wal {m : Exec X Engine α} (h : Exec.Frame Effect.KeepsWal Engine.wal m) :
    KeepsFile X whole m := by
  intro p fs hfile
  have hkept : ∀ (q : Process Engine) (fs' : Fs), q.state.wal = p.state.wal ∧ fs'.wals = fs.wals →
      FileAt X whole q.state.wal.name fs' := by
    rintro q fs' ⟨hwal, hwals⟩
    rw [hwal]
    exact hfile.congr hwals
  exact Prog.wp_imp (wp_keepsFiles h) (fun _ q fs' => hkept q fs') (fun _ q fs' => hkept q fs')

theorem keepsFile_of_walPart {m : Exec X Engine α} (h : Exec.Frame Effect.KeepsWal walPart m) :
    KeepsFile X whole m :=
  keepsFile_of_wal fun p d => ⟨(h p d).1, congrArg (fun q => q.2.1) (h p d).2⟩

theorem keepsFile_silent {m : Exec X Engine α} (h : Exec.Frame (fun _ => False) Engine.wal m) :
    KeepsFile X whole m := keepsFile_of_wal (h.mono fun _ he => he.elim)

theorem keepsFile_append (r : WalRecord) : KeepsFile X True (onWal (WalWriter.append r)) := by
  intro p fs hfile
  simp only [onWal, Exec.wp_zoom, WalWriter.append, Prog.wp_bind, Exec.wp_get, Exec.wp_effect,
    Exec.wp_modify]
  exact fun hfits => ⟨hfile, hfile.append (hfits hfile)⟩

theorem keepsFile_rotateWalIfNeeded : KeepsFile X whole (rotateWalIfNeeded (X := X)) := by
  intro p fs hfile
  simp only [rotateWalIfNeeded, Prog.wp_bind, Exec.wp_now, Exec.wp_get, Prog.wp_ite, onWal,
    Exec.wp_zoom, WalWriter.fsync, Exec.wp_effect, Prog.wp_pure]
  split
  case isTrue =>
    refine fun _ => ⟨trivial, ?_⟩
    refine Prog.wp_imp (WalWriter.wp_create_file whole) ?_ ?_
    · rintro w q fs' ⟨-, hname, hfile'⟩
      rw [Exec.wp_modify]
      show FileAt X whole w.name fs'
      rwa [hname]
    · rintro _ q fs' ⟨hq, rfl⟩
      rw [hq]
      exact hfile
  case isFalse => exact hfile

theorem keepsFile_writeRecord (r : WalRecord) : KeepsFile X True (writeRecord (X := X) r) :=
  .bind (keepsFile_append r) fun _ => .bind keepsFile_rotateWalIfNeeded fun _ => .bind (.lift _)
    fun _ => .bind (keepsFile_silent (.modify fun _ => rfl)) fun _ => .pure _

theorem keepsFile_nextLsn : KeepsFile X whole (nextLsn (X := X)) :=
  keepsFile_silent (.bind (.modify fun _ => rfl) fun _ => .bind .get fun _ => .pure _)

theorem keepsFile_writeEntry (ns key val : Bytes) (ttl : ℕ) :
    KeepsFile X True (writeEntry (X := X) ns key val ttl) :=
  .bind keepsFile_nextLsn fun _ => .bind (keepsFile_silent .now) fun _ => keepsFile_writeRecord _

theorem keepsFile_checkPut (ns : Bytes) : KeepsFile X whole (checkPut (X := X) ns) :=
  keepsFile_silent (.bind .get fun _ => .ite (fun _ => .throw _) fun _ => .ite (fun _ => .throw _)
    fun _ => .pure _)

/-- Retiring WAL files spares the current one. -/
theorem keepsFile_retireWals : KeepsFile X whole (retireWals (X := X)) := by
  intro p fs hfile
  simp only [retireWals, Prog.wp_bind, Exec.wp_get, Exec.wp_fs]
  refine Prog.wp_forM (fun rest q (fs' : Fs) => q = p ∧ FileAt X whole p.state.wal.name fs' ∧
    ∀ n ∈ rest, n ≠ p.state.wal.name) ?step ?done _ ⟨rfl, hfile, by simp⟩
  case step =>
    rintro n rest q fs' ⟨rfl, ⟨bs, hget, hbs⟩, hrest⟩
    rw [Exec.wp_effect]
    refine fun _ => ⟨trivial, rfl, ⟨bs, ?_, hbs⟩, fun n hn => hrest n (List.mem_cons_of_mem _ hn)⟩
    show (fs'.wals.erase n).get q.state.wal.name = some bs
    rw [SortedMap.get_erase, if_neg (hrest n (by simp)), hget]
  case done =>
    rintro q fs' ⟨rfl, hfile', -⟩
    exact hfile'

theorem keepsFile_finalizeFlush (m : SegmentMeta) (flushed : Lsn) :
    KeepsFile X whole (finalizeFlush (X := X) m flushed) :=
  .bind (keepsFile_of_walPart (onStore_keepsWal (SegmentStore.finalizeSegment_frame m))) fun _ =>
    .bind (keepsFile_silent (.modify fun _ => rfl)) fun _ => keepsFile_retireWals

theorem keepsFile_beginFlush : KeepsFile X whole (beginFlush (X := X)) :=
  keepsFile_of_walPart (beginFlush_frame _)

theorem keepsFile_flushToSegments : KeepsFile X whole (flushToSegments (X := X)) := by
  refine .bind keepsFile_beginFlush fun work => ?_
  cases work with
  | none => exact .throw _
  | some w =>
    exact .bind (keepsFile_of_walPart ((w.execute_frame walPart).mono fun _ he => .of_isSegment he))
      fun _ => .bind (keepsFile_finalizeFlush _ _) fun _ => .pure _

theorem keepsFile_syncWal : KeepsFile X whole (onWal (X := X) WalWriter.fsync) :=
  keepsFile_of_walPart syncWal_frame

theorem keepsFile_flush : KeepsFile X whole (flush (X := X)) := keepsFile_syncWal

theorem keepsFile_snapshot : KeepsFile X whole (snapshot (X := X)) :=
  keepsFile_silent (.bind .get fun _ => .bind (.modify fun _ => rfl) fun _ => .pure _)

theorem keepsFile_dropSnapshot (id : ℕ) : KeepsFile X whole (dropSnapshot (X := X) id) :=
  keepsFile_silent (.modify fun _ => rfl)

theorem keepsFile_put (ns key val : Bytes) : KeepsFile X True (put (X := X) ns key val) :=
  .bind (keepsFile_checkPut ns) fun _ => .bind (keepsFile_writeEntry _ _ _ _) fun _ =>
    .bind (keepsFile_silent .get) fun _ => .ite
      (fun _ => .bind keepsFile_flushToSegments fun _ => .pure _) fun _ => .pure _

theorem keepsFile_putWithTtl (ns key val : Bytes) (ttl : ℕ) :
    KeepsFile X True (putWithTtl (X := X) ns key val ttl) :=
  .bind (keepsFile_checkPut ns) fun _ => keepsFile_writeEntry _ _ _ _

theorem keepsFile_delete (ns key : Bytes) : KeepsFile X True (delete (X := X) ns key) :=
  .bind (keepsFile_silent .get) fun _ => .ite (fun _ => .throw _) fun _ => .bind keepsFile_nextLsn
    fun _ => .bind (keepsFile_silent .now) fun _ => keepsFile_writeRecord _

theorem keepsFile_commitRecord (r : WalRecord) : KeepsFile X True (commitRecord (X := X) r) :=
  .bind keepsFile_nextLsn fun _ => .bind (keepsFile_append _) fun _ => .bind (.lift _) fun _ =>
    keepsFile_silent (.modify fun _ => rfl)

theorem keepsFile_runTransaction (ops : List TxOp) :
    KeepsFile X True (runTransaction (X := X) ops) :=
  .bind (keepsFile_silent (.bind (.modify fun _ => rfl) fun _ => .bind .get fun _ => .pure _)) fun _ =>
    .bind (.lift _) fun _ => .bind (.lift _) fun _ => .bind (.forM keepsFile_commitRecord _) fun _ =>
    .bind (keepsFile_silent .get) fun _ => .bind keepsFile_syncWal fun _ =>
    .bind keepsFile_rotateWalIfNeeded fun _ => .pure _

theorem keepsFile_importEntry (g : ImportProgress) (q : Bytes × MemEntry) :
    KeepsFile X True (importEntry (X := X) g q) := by
  refine .bind (keepsFile_silent .get) fun _ => .bind (keepsFile_silent .fs) fun _ => .ite (fun _ => ?_)
    fun _ => .pure _
  split
  · exact .bind (.ite (fun _ => .throw _) fun _ => .bind keepsFile_nextLsn fun _ =>
      keepsFile_writeRecord _) fun _ => .pure _
  · exact .pure _
  · exact .bind (.bind keepsFile_nextLsn fun _ => keepsFile_writeRecord _) fun _ => .pure _
  · exact .pure _

theorem keepsFile_importSegment (dat : Dat) (size : ℕ) (hash : Bytes) :
    KeepsFile X True (importSegment (X := X) dat size hash) := by
  refine .bind (keepsFile_silent .get) fun _ => .ite (fun _ => .pure _) fun _ => .ite (fun _ => .pure _)
    fun _ => .bind (keepsFile_of_wal (.effect trivial)) fun _ =>
      .bind (keepsFile_of_wal (.effect trivial)) fun _ => ?_
  split
  · exact .pure _
  · exact .pure _
  · exact .bind (.foldlM keepsFile_importEntry _ _) fun _ =>
      .bind (keepsFile_of_walPart (onStore_keepsWal (SegmentStore.allocSegmentId_frame _))) fun _ =>
      .bind (keepsFile_of_wal (.effect trivial)) fun _ => .bind keepsFile_syncWal fun _ =>
      .bind (keepsFile_silent .now) fun _ =>
      .bind (keepsFile_of_walPart (writeSidecars_frame _ _ _)) fun _ => .bind (keepsFile_silent .fs)
      fun _ => .bind (.lift _) fun _ =>
      .bind (keepsFile_of_walPart (onStore_keepsWal (SegmentStore.addImportedSegment_frame _ _)))
        fun _ => .pure _

end Engine

/-! ### Runs -/

/-- Opening leaves the engine at a WAL file with a header. -/
theorem Engine.wp_openWal_file (config : EdgestoreConfig) (lsn : Lsn) {p : Process σ} :
    Prog.wp (Engine.openWal (X := X) config lsn)
      ⟨fun w _ fs' => FileAt X False w.name fs', fun _ _ _ => True, FitsBehindWhole X,
        AppendsBehindWhole X⟩ p fs := by
  have hcreate : ∀ (n : Lsn) (q : Process σ), Prog.wp (WalWriter.create (X := X) n config)
      ⟨fun w _ fs' => FileAt X False w.name fs', fun _ _ _ => True, FitsBehindWhole X,
        AppendsBehindWhole X⟩ q fs := by
    intro n q
    refine Prog.wp_imp (WalWriter.wp_create_file False) ?_ (fun _ _ _ _ => trivial)
    rintro w _ fs' ⟨-, hname, hfile⟩
    rwa [hname]
  simp only [Engine.openWal, Prog.wp_bind, Exec.wp_fs]
  cases hlast : fs.wals.entries.getLast? with
  | none => exact hcreate _ _
  | some latest =>
    obtain ⟨n, bs⟩ := latest
    have hget : fs.wals.get n = some bs := by
      obtain ⟨pre, hpre⟩ := List.getLast?_eq_some_iff.mp hlast
      exact Fs.Latest.get_eq ⟨pre, hpre⟩
    simp only [WalWriter.open, Prog.wp_bind, Exec.wp_fs, hget, Prog.wp_lift]
    cases hheader : readAndValidateHeader bs with
    | error err => exact trivial
    | ok u =>
      simp only [Prog.result_ok, Exec.wp_now, Prog.wp_pure, Prog.wp_ite]
      split
      case isTrue => exact hcreate _ _
      case isFalse => exact ⟨bs, hget, hheader, fun h => h.elim⟩

theorem Engine.wp_open_file (config : EdgestoreConfig) {p : Process σ} :
    Prog.wp (Engine.open (X := X) config)
      ⟨fun e _ fs' => FileAt X False e.wal.name fs', fun _ _ _ => True, FitsBehindWhole X,
        AppendsBehindWhole X⟩ p fs := by
  simp only [Engine.open, Prog.wp_bind, Exec.wp_fs, Prog.wp_lift]
  cases recoverFromWal X fs .empty with
  | error err => exact trivial
  | ok res =>
    refine Prog.wp_imp (Engine.wp_openWal_file config _) ?_ (fun _ _ _ h => h)
    intro wal q fs₁ hfile
    refine Prog.wp_imp (wp_keepsFiles ((SegmentStore.open_frame config.cohortWindowSecs
      (fun _ : σ => ())).mono fun _ he => .of_isSegment he)) ?_ (fun _ _ _ _ => trivial)
    rintro store q' fs₂ ⟨-, hwals⟩
    exact (Prog.wp_pure _).mpr (hfile.congr hwals)

namespace World

variable {w : World} {c : Call}

/-- The open engine is at a WAL file with a header. -/
def AtFile (X : Externals) (w : World) : Prop :=
  ∀ e, w.engine = some e → FileAt X False e.wal.name w.fs

/-- A call that may append finds the current WAL file at the end of a frame. -/
def FindsWhole (X : Externals) (w : World) (c : Call) : Prop :=
  match c.op with
  | .put .. | .putWithTtl .. | .delete .. | .commit .. | .importSegment .. =>
    ∀ e, w.engine = some e → e.EndsWhole X w.fs
  | _ => True

instance (X : Externals) (w : World) (c : Call) : Decidable (w.FindsWhole X c) := by
  obtain ⟨op, clock, stop⟩ := c
  unfold FindsWhole
  rcases op <;> infer_instance

end World

/-- An outcome that appends to files with a header, behind whole frames, and that leaves the engine at
such a file. -/
structure Outcome.FilesKept (X : Externals) (w : World) (o : Outcome) : Prop where
  guar : (disk X).Safe (FitsBehindWhole X) (AppendsBehindWhole X) o.effects w.fs
  engine : (disk X).All (FitsBehindWhole X) o.effects w.fs →
    ∀ e, o.engine = some e → FileAt X False e.wal.name ((disk X).run o.effects w.fs)

namespace World

variable {w : World} {c : Call} {clock : ℕ → ℕ} {land : α → List Flight}

theorem AtFile.filesKept_idle {ok : Bool} (h : AtFile X w) : (w.idle ok).FilesKept X w :=
  ⟨trivial, fun _ e he => h e he⟩

/-- A method of the engine. -/
theorem AtFile.filesKept_onEngine {m : Exec X Engine α} (h : AtFile X w)
    (hm : Engine.KeepsFile X whole m)
    (hfile : ∀ e, w.engine = some e → FileAt X whole e.wal.name w.fs) :
    (w.onEngine X clock m land).FilesKept X w := by
  cases he : w.engine with
  | none =>
    simp only [onEngine, he]
    exact h.filesKept_idle
  | some e =>
    obtain ⟨hsafe, hres⟩ := hm ⟨e, clock⟩ w.fs (hfile e he)
    simp only [onEngine, he]
    have hweak : ∀ {n fs'}, FileAt X whole n fs' → FileAt X False n fs' := by
      rintro n fs' ⟨bs, hget, hheader, -⟩
      exact ⟨bs, hget, hheader, fun h => h.elim⟩
    generalize m.run ⟨e, clock⟩ w.fs = r at hsafe hres ⊢
    obtain ⟨_ | a, q, es⟩ := r
    · exact ⟨hsafe, fun hes e he => (by cases he; exact hweak (hres hes))⟩
    · exact ⟨hsafe, fun hes e he => (by cases he; exact hweak (hres hes))⟩

theorem AtFile.filesKept_execute {i : ℕ} (h : AtFile X w) :
    (w.perform X (.execute i) clock).FilesKept X w := by
  simp only [perform, executeFlight]
  cases w.flights[i]? with
  | none => exact h.filesKept_idle
  | some f =>
    obtain ⟨hsafe, hres⟩ := @wp_keepsFiles X w.fs Unit SegmentMeta Unit (fun _ => ())
      (f.work.execute (X := X)) ⟨(), clock⟩
      ((f.work.execute_frame (X := X) fun _ : Unit => ()).mono fun _ he => .of_isSegment he)
    simp only
    generalize (f.work.execute (X := X)).run ⟨(), clock⟩ w.fs = r at hsafe hres ⊢
    obtain ⟨_ | m, q, es⟩ := r
    · exact ⟨hsafe, fun hes e he => (h e he).congr (hres hes).2⟩
    · exact ⟨hsafe, fun hes e he => (h e he).congr (hres hes).2⟩

/-- **Every call** appends to files with a header, and behind whole frames if it finds one. -/
theorem filesKept (h : AtFile X w) (hc : w.FindsWhole X c) :
    (w.perform X c.op c.clock).FilesKept X w := by
  obtain ⟨op, clock, stop⟩ := c
  have hwhole : (∀ e, w.engine = some e → e.EndsWhole X w.fs) →
      ∀ e, w.engine = some e → FileAt X True e.wal.name w.fs := by
    intro hends e he
    obtain ⟨bs, hget, hheader, -⟩ := h e he
    exact ⟨bs, hget, hheader, fun _ => hends e he bs hget⟩
  have hframe : ∀ {β : Type} {m : Exec X Engine β}, Engine.KeepsFile X False m →
      (w.onEngine X clock m).FilesKept X w := fun hm => h.filesKept_onEngine hm h
  cases op with
  | «open» config =>
    cases he : w.engine with
    | some e =>
      simp only [perform, he]
      exact h.filesKept_idle
    | none =>
      obtain ⟨hsafe, hres⟩ := @Engine.wp_open_file X w.fs Unit config ⟨(), clock⟩
      simp only [perform, he]
      generalize (Engine.open (X := X) (σ := Unit) config).run ⟨(), clock⟩ w.fs = r at hsafe hres ⊢
      obtain ⟨_ | e', q, es⟩ := r
      · exact ⟨hsafe, fun _ e he => (by cases he)⟩
      · exact ⟨hsafe, fun hes e he => (by cases he; exact hres hes)⟩
  | close =>
    obtain ⟨hsafe, -⟩ := hframe Engine.keepsFile_flush
    exact ⟨hsafe, fun _ e he => (by cases he)⟩
  | put ns key val => exact h.filesKept_onEngine (Engine.keepsFile_put _ _ _) (hwhole hc)
  | putWithTtl ns key val ttl =>
    exact h.filesKept_onEngine (Engine.keepsFile_putWithTtl _ _ _ _) (hwhole hc)
  | delete ns key => exact h.filesKept_onEngine (Engine.keepsFile_delete _ _) (hwhole hc)
  | commit ops => exact h.filesKept_onEngine (Engine.keepsFile_runTransaction _) (hwhole hc)
  | flush => exact hframe Engine.keepsFile_flush
  | flushToSegments => exact hframe Engine.keepsFile_flushToSegments
  | beginFlush => exact h.filesKept_onEngine Engine.keepsFile_beginFlush h
  | execute i => exact h.filesKept_execute
  | finalizeFlush i =>
    simp only [perform]
    split
    case h_1 =>
      obtain ⟨hsafe, hengine⟩ := hframe (Engine.keepsFile_finalizeFlush _ _)
      exact ⟨hsafe, hengine⟩
    case h_2 => exact h.filesKept_idle
  | abandon i => exact ⟨trivial, fun _ e he => h e he⟩
  | compactOnce order =>
    exact hframe (Engine.keepsFile_of_walPart
      ((Engine.compactOnce_frame order).mono fun _ he => .of_isSegment he))
  | stripTextIndex id =>
    exact hframe (Engine.keepsFile_of_walPart
      ((Engine.stripIndex_frame textIndex id).mono fun _ he => .of_isSegment he))
  | stripVectorIndex id =>
    exact hframe (Engine.keepsFile_of_walPart
      ((Engine.stripIndex_frame vectorIndex id).mono fun _ he => .of_isSegment he))
  | importSegment dat size hash =>
    exact h.filesKept_onEngine (Engine.keepsFile_importSegment _ _ _) (hwhole hc)
  | snapshot => exact hframe Engine.keepsFile_snapshot
  | dropSnapshot id => exact hframe (Engine.keepsFile_dropSnapshot id)

/-! ### Runs -/

/-- A call, with the notes about what it appends. -/
def stepNoted (X : Externals) (s : World × WalNotes) (c : Call) : World × WalNotes :=
  (s.1.step X c,
    match c.stop with
    | none => ((notedDisk X).run (s.1.effects X c) (s.1.fs, s.2)).2
    | some (n, m) => ((notedDisk X).cut (s.1.effects X c) n m (s.1.fs, s.2)).2)

/-- The effects that a call brings to their end. -/
def completedEffects (X : Externals) (w : World) (c : Call) : List Effect :=
  match c.stop with
  | none => w.effects X c
  | some (n, _) => (w.effects X c).take n

/-- After every effect of a call, and where a crash stops it, readers find in every WAL file what was
appended to it. -/
def Lossless (X : Externals) (s : World × WalNotes) (c : Call) : Prop :=
  (notedDisk X).All (fun e d => ReadsBack X ((notedDisk X).apply e d)) (s.1.completedEffects X c)
      (s.1.fs, s.2) ∧
    ReadsBack X ((stepNoted X s c).1.fs, (stepNoted X s c).2)

/-- The compressed records of a call have a length that fits its field. -/
def ShortWal (X : Externals) : Effect → Fs → Prop
  | .walAppend _ r, _ => (X.compress (serializeRecord r)).length < 2 ^ 32
  | _, _ => True

/-- The engine is at a file with a header, and what was appended is read back. -/
structure NotedInv (X : Externals) (s : World × WalNotes) : Prop where
  atFile : s.1.AtFile X
  readsBack : ReadsBack X (s.1.fs, s.2)

variable {s : World × WalNotes}

theorem stepNoted_fs (hc : c.stop = none) :
    ((stepNoted X s c).1.fs, (stepNoted X s c).2) =
      (notedDisk X).run (s.1.effects X c) (s.1.fs, s.2) := by
  obtain ⟨op, clock, stop⟩ := c
  obtain rfl : stop = none := hc
  exact Prod.ext Device.run_noted.symm rfl

theorem stepNoted_fs_crash {n m : ℕ} (hc : c.stop = some (n, m)) :
    ((stepNoted X s c).1.fs, (stepNoted X s c).2) =
      (notedDisk X).cut (s.1.effects X c) n m (s.1.fs, s.2) := by
  obtain ⟨op, clock, stop⟩ := c
  obtain rfl : stop = some (n, m) := hc
  exact Prod.ext (Device.cut_noted n m).symm rfl

/-- Effects that keep the discipline keep what readers find. -/
theorem all_readsBack {es : List Effect} {d : (notedDisk X).State}
    (hguar : (disk X).All (AppendsBehindWhole X) es d.1)
    (hrely : (disk X).All (FitsBehindWhole X) es d.1) (h : ReadsBack X d) :
    (notedDisk X).All (fun e d => AppendsBehindWhole X e d.1 ∧ FitsBehindWhole X e d.1) es d ∧
      (notedDisk X).All (fun e d => ReadsBack X ((notedDisk X).apply e d)) es d := by
  obtain ⟨fs, log⟩ := d
  have hboth : (notedDisk X).All (fun e d => AppendsBehindWhole X e d.1 ∧ FitsBehindWhole X e d.1) es
      (fs, log) := Device.all_noted.mpr (Device.all_and.mpr ⟨hguar, hrely⟩)
  exact ⟨hboth, hboth.with_inv (I := ReadsBack X)
    (fun e d he hd => ⟨hd.apply he.1 he.2, hd.apply he.1 he.2⟩) h⟩

/-- **A call** that finds a whole frame and appends records within the limits is lossless. -/
theorem NotedInv.lossless (h : NotedInv X s) (hwhole : s.1.FindsWhole X c)
    (hfits : s.1.EffectsMeet X (FitsWal X) c) : Lossless X s c ∧ NotedInv X (stepNoted X s c) := by
  have hkept := filesKept h.atFile hwhole
  have hrely : ∀ e fs, FitsWal X e fs → FitsBehindWhole X e fs := by
    intro e fs hfits
    cases e <;> first | exact fun _ => hfits | trivial
  cases hstop : c.stop with
  | none =>
    have hfits : (disk X).All (FitsBehindWhole X) (s.1.effects X c) s.1.fs := by
      simp only [EffectsMeet, hstop] at hfits
      exact hfits.mono hrely
    obtain ⟨hboth, hall⟩ := all_readsBack (hkept.guar.all hfits) hfits h.readsBack
    have hafter : ReadsBack X ((stepNoted X s c).1.fs, (stepNoted X s c).2) := by
      rw [stepNoted_fs hstop]
      exact hboth.run (I := ReadsBack X) (fun e d he hd => hd.apply he.1 he.2) h.readsBack
    refine ⟨⟨?_, hafter⟩, ?_, hafter⟩
    · rwa [completedEffects, hstop]
    · have hengine := hkept.engine hfits
      obtain ⟨op, clock, stop⟩ := c
      obtain rfl : stop = none := hstop
      exact hengine
  | some stop =>
    obtain ⟨n, m⟩ := stop
    have hfits : (disk X).All (FitsBehindWhole X) ((s.1.effects X c).take (n + 1)) s.1.fs := by
      simp only [EffectsMeet, hstop] at hfits
      exact hfits.mono hrely
    obtain ⟨hboth, hall⟩ := all_readsBack ((hkept.guar.take (n + 1)).all hfits) hfits h.readsBack
    have hafter : ReadsBack X ((stepNoted X s c).1.fs, (stepNoted X s c).2) := by
      rw [stepNoted_fs_crash hstop, ← Device.cut_take]
      exact hboth.cut (I := ReadsBack X) (fun e d he hd => hd.apply he.1 he.2)
        (fun e d he hd m => hd.tear he.1 he.2 m) h.readsBack n m
    refine ⟨⟨?_, hafter⟩, ?_, hafter⟩
    · have htake : (s.1.effects X c).take n = ((s.1.effects X c).take (n + 1)).take n := by
        rw [List.take_take, Nat.min_eq_left (Nat.le_succ n)]
      rw [completedEffects, hstop]
      simp only
      rw [htake]
      exact hall.take n
    · obtain ⟨op, clock, stop⟩ := c
      obtain rfl : stop = some (n, m) := hstop
      intro e he
      cases he

/-- **The records of a lossless call** are within the limits. -/
theorem NotedInv.fits (h : NotedInv X s) (hwhole : s.1.FindsWhole X c) (hlossless : Lossless X s c)
    (hshort : (disk X).All (ShortWal X) (s.1.completedEffects X c) s.1.fs) :
    (disk X).All (FitsWal X) (s.1.completedEffects X c) s.1.fs ∧ NotedInv X (stepNoted X s c) := by
  have hkept := filesKept h.atFile hwhole
  have hsafe : (disk X).Safe (FitsBehindWhole X) (AppendsBehindWhole X) (s.1.completedEffects X c)
      s.1.fs := by
    rw [completedEffects]
    split
    · exact hkept.guar
    · exact hkept.guar.take _
  -- a record that is read back behind a whole frame is within the limits
  have hrely : (disk X).All (FitsBehindWhole X) (s.1.completedEffects X c) s.1.fs := by
    refine Device.all_noted.mp (Device.Safe.all_of_inv (I := ReadsBack X) (L := fun e d =>
      ReadsBack X ((notedDisk X).apply e d) ∧ ShortWal X e d.1) ?_ ?_ (Device.safe_noted.mpr hsafe)
      (Device.all_and.mpr ⟨hlossless.1, Device.all_noted.mpr hshort⟩) h.readsBack).1
    · rintro e ⟨fs, log⟩ hd ⟨hafter, hlt⟩
      cases e with
      | walAppend n r => exact fun hfile => hd.fits hfile hafter hlt
      | _ => trivial
    · exact fun e d hd he hg => hd.apply hg he
  refine ⟨?_, ?_, hlossless.2⟩
  · refine (Device.all_and.mpr ⟨hsafe.all hrely, hrely⟩).mono fun e fs he => ?_
    cases e with
    | walAppend n r => exact he.2 he.1
    | _ => trivial
  · obtain ⟨op, clock, _ | ⟨n, m⟩⟩ := c
    · exact hkept.engine hrely
    · intro e he
      cases he

theorem notedInv_empty : NotedInv X ({}, fun _ => []) := by
  refine ⟨fun e he => (by cases he), fun n bs hget => ?_⟩
  cases hget

/-- **Runs that append records within the limits**, behind whole frames, are lossless; and in lossless
runs that append behind whole frames, the records are within the limits, as long as the length of
what they are compressed to fits its field. -/
theorem lossless_run (calls : List Call) :
    (Run.All (stepNoted X) (fun s c => s.1.FindsWhole X c ∧ s.1.EffectsMeet X (FitsWal X) c)
        ({}, fun _ => []) calls →
      Run.All (stepNoted X) (Lossless X) ({}, fun _ => []) calls) ∧
    (Run.All (stepNoted X) (fun s c => s.1.FindsWhole X c ∧ Lossless X s c ∧
        (disk X).All (ShortWal X) (s.1.completedEffects X c) s.1.fs) ({}, fun _ => []) calls →
      Run.All (stepNoted X) (fun s c => (disk X).All (FitsWal X) (s.1.completedEffects X c) s.1.fs)
        ({}, fun _ => []) calls) := by
  constructor
  · intro h
    exact h.imp_of_invariant (I := NotedInv X) (fun s c hs hc => (hs.lossless hc.1 hc.2).2)
      (fun s c hs hc => (hs.lossless hc.1 hc.2).1) notedInv_empty
  · intro h
    exact h.imp_of_invariant (I := NotedInv X) (fun s c hs hc => (hs.fits hc.1 hc.2.1 hc.2.2).2)
      (fun s c hs hc => (hs.fits hc.1 hc.2.1 hc.2.2).1) notedInv_empty

/-- A put, a transaction and a delete. -/
def losslessRun : List Call :=
  [{ op := .open {} }, { op := .put [1] [1] [1] },
    { op := .commit [{ op := .put, ns := [1], key := [2], val := [2] },
      { op := .delete, ns := [1], key := [1] }] },
    { op := .delete [1] [2], stop := some (0, 30) },
    { op := .open {}, clock := fun i => i * 61000000000 }, { op := .put [1] [3] [3] }]

theorem lossless_losslessRun :
    Run.All (stepNoted plainExternals) (Lossless plainExternals) ({}, fun _ => []) losslessRun :=
  (lossless_run losslessRun).1 (by decide +kernel)

/-- A put appends its record first. -/
theorem prefix_put {e : Engine} {ns key val : Bytes} (hr : e.config.readonly = false)
    (hns : ns.length ≤ maxNsLen) :
    [.walAppend e.wal.name (Engine.putRecord X (e.lsnCounter + 1) (asI64 (clock 0)) 0 ns key val)] <+:
      ((Engine.put (X := X) ns key val).run ⟨e, clock⟩ fs).2.2 := by
  have hcheck : (Engine.checkPut (X := X) ns).run ⟨e, clock⟩ fs = (.ok (), ⟨e, clock⟩, []) := by
    simp [Engine.checkPut, Prog.bind, bind, Exec.get, Prog.mem, hr, pure, not_lt.mpr hns]
  have hwrite : (Engine.writeEntry (X := X) ns key val 0).run ⟨e, clock⟩ ((disk X).run [] fs) =
      (Engine.writeRecord (Engine.putRecord X (e.lsnCounter + 1) (asI64 (clock 0)) 0 ns key val)).run
        ⟨{ e with lsnCounter := e.lsnCounter + 1 }, fun i => clock (i + 1)⟩ fs := rfl
  rw [Engine.put, Prog.run_bind_ok hcheck]
  refine List.IsPrefix.trans ?_ (Prog.prefix_run_bind (Engine.writeEntry ns key val 0) _ _ _)
  rw [hwrite, Engine.writeRecord]
  refine List.IsPrefix.trans ?_ (Prog.prefix_run_bind _ _ _ _)
  exact List.prefix_refl _

/-- A put of a value that does not compress to the limit of the readers. -/
theorem not_lossless_long {val : Bytes} (hlong : maxCompressedLen ≤ val.length)
    (hlt : val.length < 2 ^ 31) :
    ¬ Run.All (stepNoted plainExternals) (Lossless plainExternals) ({}, fun _ => [])
      [{ op := .open {} }, { op := .put [1] [1] val }] := by
  rintro ⟨⟨-, hopened⟩, ⟨hput, -⟩, -⟩
  -- the record comes first among the effects of the put
  obtain ⟨e, he, hlsn, hname, hr⟩ : ∃ e, (stepNoted plainExternals ({}, fun _ => [])
      { op := .open {} }).1.engine = some e ∧ e.lsnCounter = 0 ∧ e.wal.name = 0 ∧
        e.config.readonly = false := ⟨_, rfl, rfl, rfl, rfl⟩
  obtain ⟨rest, hrest⟩ := @prefix_put plainExternals
    (stepNoted plainExternals ({}, fun _ => []) { op := .open {} }).1.fs (fun _ => 0) e [1] [1] val hr
    (by simp [maxNsLen])
  have heffects : (stepNoted plainExternals ({}, fun _ => []) { op := .open {} }).1.effects
      plainExternals { op := .put [1] [1] val } =
        .walAppend 0 (Engine.putRecord plainExternals 1 0 0 [1] [1] val) :: rest := by
    simp only [effects, perform, onEngine, he]
    rw [hlsn, hname] at hrest
    generalize (Engine.put (X := plainExternals) [1] [1] val).run ⟨e, fun _ => 0⟩ _ = r at hrest ⊢
    obtain ⟨_ | _, q, es⟩ := r <;> exact hrest.symm
  rw [completedEffects] at hput
  simp only [heffects] at hput
  have hlength : (plainExternals.compress (serializeRecord
      (Engine.putRecord plainExternals 1 0 0 [1] [1] val))).length = 73 + val.length := by
    simp [plainExternals, serializeRecord, Engine.putRecord, plainHash]
    omega
  have hfits := ReadsBack.fits hopened ⟨walHeader, rfl, rfl, fun _ => walClean_header⟩ hput.1
    (by omega)
  have := hfits.length_le
  omega

/-- **A value that does not compress to 64 MiB** is acknowledged, and its record stops readers. -/
theorem lossy_longValue :
    ¬ ∀ calls, Run.All (stepNoted plainExternals) (Lossless plainExternals) ({}, fun _ => [])
      calls := fun h =>
  @not_lossless_long (List.replicate maxCompressedLen 0) (by rw [List.length_replicate])
    (by rw [List.length_replicate, maxCompressedLen]; omega) (h _)

end World
