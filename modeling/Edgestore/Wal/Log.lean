import Edgestore.Wal

/-!
# The log behind the WAL files

Recovery replays the records of all WAL files, file after file. As long as records are appended to the
last file only, behind a complete frame, and files are unlinked from the front, these records are a
log: an append adds a record at its end, an unlinked file drops a prefix of it, and an effect that is
cut short either takes place or leaves the log as it was.

## Main definitions

* `fileRecords X bs`, `walSequence X fs`: the records that recovery replays
* `WalHolds X bs rs`, `WalClean X bs`: what a WAL file holds, and that it ends at the end of a frame
* `WalEffect X e fs`: the discipline of the effects on WAL files
* `replayed m rs`: the memtable after inserting the entries of records
* `recovered X fs`: the memtable that opening the engine recovers
* `LeavesLog X e fs`: effects that recovery does not see

## Main results

* `recoverFromWal_eq`: recovery replays `walSequence`
* `WalEffect.walSequence_apply`, `WalEffect.walSequence_tear`: what effects do to the log
-/

open FramedLog

variable {X : Externals} {fs : Fs} {bs : Bytes} {r : WalRecord} {rs : List WalRecord} {n : Lsn}

/-! ### WAL files -/

/-- The records that recovery replays from a WAL file. -/
def fileRecords (X : Externals) (bs : Bytes) : List WalRecord :=
  match readAndValidateHeader bs with
  | .error _ => []
  | .ok () => readRecords X bs

/-- The records that recovery replays, in order. -/
def walSequence (X : Externals) (fs : Fs) : List WalRecord :=
  fs.wals.entries.flatMap fun p => fileRecords X p.2

/-- `bs` is a header, the frames of the records `rs`, and bytes at which the reader stops. -/
def WalHolds (X : Externals) (bs : Bytes) (rs : List WalRecord) : Prop :=
  ∃ body, bs = walHeader ++ body ∧ Framed (walFormat X) body rs ∧ ∀ r ∈ rs, r.Fits X

/-- The WAL file ends at the end of a frame. -/
def WalClean (X : Externals) (bs : Bytes) : Prop :=
  residue (walFormat X) (bs.drop walHeader.length) = []

instance (X : Externals) (bs : Bytes) : Decidable (WalClean X bs) :=
  inferInstanceAs (Decidable (_ = _))

/-- A WAL file as the store writes it: its header is cut short, or it holds records. -/
def WalFile (X : Externals) (bs : Bytes) : Prop :=
  bs.length < walHeader.length ∨ ∃ rs, WalHolds X bs rs

/-- All WAL files are as the store writes them. -/
def WalFiles (X : Externals) (fs : Fs) : Prop := ∀ p ∈ fs.wals.entries, WalFile X p.2

@[simp] theorem readAndValidateHeader_walHeader (body : Bytes) :
    readAndValidateHeader (walHeader ++ body) = .ok () := by
  simp [readAndValidateHeader, walHeader]

theorem readAndValidateHeader_short (h : bs.length < walHeader.length) :
    readAndValidateHeader bs = .error (.corruptRecord "WAL file too short to contain header") := by
  rw [readAndValidateHeader, if_pos (by simpa [walHeader] using h)]

theorem fileRecords_short (h : bs.length < walHeader.length) : fileRecords X bs = [] := by
  rw [fileRecords, readAndValidateHeader_short h]

namespace WalHolds

theorem fileRecords_eq (h : WalHolds X bs rs) : fileRecords X bs = rs := by
  obtain ⟨body, rfl, hbody, -⟩ := h
  rw [fileRecords, readAndValidateHeader_walHeader]
  simp only [readRecords, List.drop_left]
  exact hbody.read_eq

theorem header_ok (h : WalHolds X bs rs) : readAndValidateHeader bs = .ok () := by
  obtain ⟨body, rfl, -⟩ := h
  exact readAndValidateHeader_walHeader body

theorem header : WalHolds X walHeader [] := ⟨[], by simp, framed_nil, by simp⟩

theorem fits (h : WalHolds X bs rs) : ∀ r ∈ rs, r.Fits X := by
  obtain ⟨-, -, -, hfits⟩ := h
  exact hfits

/-- Appending a record behind a complete frame. -/
theorem append (h : WalHolds X bs rs) (hc : WalClean X bs) (hr : r.Fits X) :
    WalHolds X (bs ++ frame (walFormat X) r) (rs ++ [r]) ∧
      WalClean X (bs ++ frame (walFormat X) r) := by
  obtain ⟨body, rfl, hbody, hfits⟩ := h
  rw [WalClean, List.drop_left] at hc
  refine ⟨⟨body ++ frame (walFormat X) r, by rw [List.append_assoc],
    hbody.append hc (fits_walFormat hr), fun r' hr' => ?_⟩, ?_⟩
  · rcases List.mem_append.mp hr' with hr' | hr'
    · exact hfits r' hr'
    · exact List.mem_singleton.mp hr' ▸ hr
  · rw [WalClean, List.append_assoc, List.drop_left]
    exact residue_append_frame hbody hc (fits_walFormat hr)

/-- An append that is cut short leaves what the file holds. -/
theorem append_torn (h : WalHolds X bs rs) (hc : WalClean X bs) (hr : r.Fits X) {m : ℕ}
    (hm : m < (frame (walFormat X) r).length) :
    WalHolds X (bs ++ (frame (walFormat X) r).take m) rs := by
  obtain ⟨body, rfl, hbody, hfits⟩ := h
  rw [WalClean, List.drop_left] at hc
  exact ⟨body ++ (frame (walFormat X) r).take m, by rw [List.append_assoc],
    hbody.append_torn hc (fits_walFormat hr) hm, hfits⟩

end WalHolds

theorem walClean_header : WalClean X walHeader := by
  rw [WalClean, List.drop_length, residue_of_next_none next_nil]

theorem WalFiles.fits (h : WalFiles X fs) : ∀ r ∈ walSequence X fs, r.Fits X := by
  intro r hr
  obtain ⟨p, hp, hr⟩ := List.mem_flatMap.mp hr
  rcases h p hp with hshort | ⟨rs, hholds⟩
  · rw [fileRecords_short hshort] at hr
    cases hr
  · exact hholds.fits r (hholds.fileRecords_eq ▸ hr)

theorem WalRecord.Fits.nsBytes_le (h : r.Fits X) : r.nsBytes.length ≤ maxNsLen := by
  have := h.inRange.nsBytes
  rw [maxNsLen]
  omega

/-! ### Recovery -/

/-- The encoded key of a record. -/
def WalRecord.encodedKey (r : WalRecord) : Bytes :=
  beBytes 2 r.nsBytes.length ++ r.nsBytes ++ r.keyBytes

/-- The memtable after inserting the entries of records, one after the other. -/
def replayed (m : MemTable) (rs : List WalRecord) : MemTable :=
  m.insertAll (rs.map fun r => (r.encodedKey, r.toEntry r.encodedKey))

theorem encodeKey_record (h : r.nsBytes.length ≤ maxNsLen) :
    encodeKey r.nsBytes r.keyBytes = .ok r.encodedKey := encodeKey_eq_ok.mpr ⟨h, rfl⟩

@[simp] theorem replayed_nil (m : MemTable) : replayed m [] = m := rfl

theorem replayed_cons (m : MemTable) (r : WalRecord) (rs : List WalRecord) :
    replayed m (r :: rs) = replayed (m.insert r.encodedKey (r.toEntry r.encodedKey)) rs := rfl

theorem replayed_append (m : MemTable) (rs rs' : List WalRecord) :
    replayed m (rs ++ rs') = replayed (replayed m rs) rs' := by
  simp [replayed, SortedMap.insertAll]

/-- The entries after a replay are those of the memtable and of the records. -/
theorem mem_replayed {m : MemTable} {p : Bytes × MemEntry} (h : p ∈ (replayed m rs).entries) :
    p ∈ m.entries ∨ ∃ r ∈ rs, p = (r.encodedKey, r.toEntry r.encodedKey) := by
  induction rs generalizing m with
  | nil => exact .inl h
  | cons r rs ih =>
    rcases ih h with h | ⟨r', hr', rfl⟩
    · rcases mem_insertEntry h with rfl | h
      · exact .inr ⟨r, by simp, rfl⟩
      · exact .inl h
    · exact .inr ⟨r', by simp [hr'], rfl⟩

/-- Replaying records that have keys. -/
theorem replay_records (h : ∀ r ∈ rs, r.nsBytes.length ≤ maxNsLen)
    (acc : MemTable × RecoveryResult) :
    rs.foldlM replayRecord acc = .ok (replayed acc.1 rs,
      { acc.2 with
        maxLsn := (rs.map WalRecord.lsn).foldl max acc.2.maxLsn
        maxTxid := (rs.map WalRecord.txid).foldl max acc.2.maxTxid
        recordsReplayed := acc.2.recordsReplayed + rs.length }) := by
  induction rs generalizing acc with
  | nil => rfl
  | cons r rs ih =>
    rw [List.foldlM_cons, replayRecord, encodeKey_record (h r (by simp))]
    refine (ih (fun r' hr' => h r' (List.mem_cons_of_mem _ hr')) _).trans ?_
    simp [replayed_cons, Nat.add_comm, Nat.add_left_comm]

/-- Replaying one file replays its records. -/
theorem replayWal_eq (h : ∀ r ∈ fileRecords X bs, r.nsBytes.length ≤ maxNsLen)
    (acc : MemTable × RecoveryResult) :
    ∃ res, replayWal X acc bs = .ok (replayed acc.1 (fileRecords X bs), res) ∧
      res.maxLsn = ((fileRecords X bs).map WalRecord.lsn).foldl max acc.2.maxLsn ∧
      res.maxTxid = ((fileRecords X bs).map WalRecord.txid).foldl max acc.2.maxTxid := by
  unfold replayWal fileRecords at *
  cases hv : readAndValidateHeader bs with
  | error err =>
    simp only
    exact ⟨_, rfl, rfl, rfl⟩
  | ok u =>
    simp only [hv] at h ⊢
    exact ⟨_, replay_records h _, rfl, rfl⟩

/-- **Recovery replays the log**, and reports its greatest LSN and transaction id. -/
theorem recoverFromWal_eq (h : ∀ r ∈ walSequence X fs, r.nsBytes.length ≤ maxNsLen)
    (m : MemTable) :
    ∃ res, recoverFromWal X fs m = .ok (replayed m (walSequence X fs), res) ∧
      res.maxLsn = ((walSequence X fs).map WalRecord.lsn).foldl max 0 ∧
      res.maxTxid = ((walSequence X fs).map WalRecord.txid).foldl max 0 := by
  have hfiles : ∀ (files : List (Lsn × Bytes)) (acc : MemTable × RecoveryResult),
      (∀ r ∈ files.flatMap fun p => fileRecords X p.2, r.nsBytes.length ≤ maxNsLen) →
      ∃ res, files.foldlM (fun acc p => replayWal X acc p.2) acc =
          .ok (replayed acc.1 (files.flatMap fun p => fileRecords X p.2), res) ∧
        res.maxLsn = ((files.flatMap fun p => fileRecords X p.2).map WalRecord.lsn).foldl max
          acc.2.maxLsn ∧
        res.maxTxid = ((files.flatMap fun p => fileRecords X p.2).map WalRecord.txid).foldl max
          acc.2.maxTxid := by
    intro files
    induction files with
    | nil => exact fun acc _ => ⟨acc.2, rfl, rfl, rfl⟩
    | cons p files ih =>
      intro acc hns
      simp only [List.flatMap_cons, List.mem_append] at hns
      obtain ⟨res, hrun, hlsn, htxid⟩ := replayWal_eq (fun r hr => hns r (.inl hr)) acc
      obtain ⟨res', hrun', hlsn', htxid'⟩ := ih (replayed acc.1 (fileRecords X p.2), res)
        fun r hr => hns r (.inr hr)
      refine ⟨res', ?_, ?_, ?_⟩
      · rw [List.foldlM_cons, hrun, List.flatMap_cons, replayed_append]
        exact hrun'
      · rw [hlsn', hlsn, List.flatMap_cons, List.map_append, List.foldl_append]
      · rw [htxid', htxid, List.flatMap_cons, List.map_append, List.foldl_append]
  exact hfiles fs.wals.entries (m, {}) h

/-- The memtable that opening the engine recovers. -/
def recovered (X : Externals) (fs : Fs) : Except EdgestoreError MemTable :=
  (recoverFromWal X fs .empty).map Prod.fst

theorem recovered_eq (h : ∀ r ∈ walSequence X fs, r.nsBytes.length ≤ maxNsLen) :
    recovered X fs = .ok (replayed .empty (walSequence X fs)) := by
  obtain ⟨res, hrec, -⟩ := recoverFromWal_eq h .empty
  rw [recovered, hrec]
  rfl

/-- Insert the entry of a record. -/
def replayEntry (m : MemTable) (r : WalRecord) : Except EdgestoreError MemTable := do
  let encodedKey ← encodeKey r.nsBytes r.keyBytes
  return m.insert encodedKey (r.toEntry encodedKey)

theorem replay_map_fst (rs : List WalRecord) (acc : MemTable × RecoveryResult) :
    (rs.foldlM replayRecord acc).map Prod.fst = rs.foldlM replayEntry acc.1 := by
  induction rs generalizing acc with
  | nil => rfl
  | cons r rs ih =>
    rw [List.foldlM_cons, List.foldlM_cons, replayRecord, replayEntry]
    cases encodeKey r.nsBytes r.keyBytes with
    | ok k => exact ih _
    | error err => rfl

theorem replayWal_map_fst (acc : MemTable × RecoveryResult) (bs : Bytes) :
    (replayWal X acc bs).map Prod.fst = (fileRecords X bs).foldlM replayEntry acc.1 := by
  rw [replayWal, fileRecords]
  cases readAndValidateHeader bs with
  | error err => rfl
  | ok u => exact replay_map_fst _ _

/-- What opening recovers depends on the records that are replayed. -/
theorem recovered_eq_foldlM : recovered X fs = (walSequence X fs).foldlM replayEntry .empty := by
  have hfiles : ∀ (files : List (Lsn × Bytes)) (acc : MemTable × RecoveryResult),
      (files.foldlM (fun acc p => replayWal X acc p.2) acc).map Prod.fst =
        (files.flatMap fun p => fileRecords X p.2).foldlM replayEntry acc.1 := by
    intro files
    induction files with
    | nil => exact fun _ => rfl
    | cons p files ih =>
      intro acc
      rw [List.foldlM_cons, List.flatMap_cons, List.foldlM_append, ← replayWal_map_fst]
      cases replayWal X acc p.2 with
      | ok acc' => exact ih acc'
      | error err => rfl
  exact hfiles _ _

theorem recovered_congr {fs' : Fs} (h : walSequence X fs' = walSequence X fs) :
    recovered X fs' = recovered X fs := by
  rw [recovered_eq_foldlM, h, recovered_eq_foldlM]

/-! ### Effects on the log -/

/-- The last WAL file, by name, is `n`, with content `bs`. -/
def Fs.Latest (fs : Fs) (n : Lsn) (bs : Bytes) : Prop := ∃ pre, fs.wals.entries = pre ++ [(n, bs)]

/-- The discipline of the effects on WAL files: files are created behind all others, records are
appended to the last file, behind a complete frame, in the order of their LSNs, and files are
unlinked from the front. -/
def WalEffect (X : Externals) : Effect → Fs → Prop
  | .walCreate n, fs => ∀ p ∈ fs.wals.entries, p.1 < n
  | .walHeader n, fs => fs.Latest n []
  | .walAppend n r, fs => ∃ bs rs, fs.Latest n bs ∧ WalHolds X bs rs ∧ WalClean X bs ∧ r.Fits X ∧
      ∀ r' ∈ walSequence X fs, r'.lsn < r.lsn
  | .walUnlink n, fs => ∃ bs rest, fs.wals.entries = (n, bs) :: rest
  | _, _ => True

/-- The log after an effect that keeps the discipline. -/
def logAfter (X : Externals) (e : Effect) (fs : Fs) : List WalRecord :=
  match e with
  | .walAppend _ r => walSequence X fs ++ [r]
  | .walUnlink n => (walSequence X fs).drop (fileRecords X ((fs.wals.get n).getD [])).length
  | _ => walSequence X fs

theorem walSequence_of_entries {pre : List (Lsn × Bytes)} (h : fs.wals.entries = pre ++ [(n, bs)]) :
    walSequence X fs = (pre.flatMap fun p => fileRecords X p.2) ++ fileRecords X bs := by
  simp [walSequence, h]

namespace Fs

theorem lt_of_entries {pre : List (Lsn × Bytes)} (h : fs.wals.entries = pre ++ [(n, bs)]) :
    ∀ p ∈ pre, p.1 < n := by
  have hsorted := fs.wals.sorted
  rw [h, KeySorted, List.pairwise_append] at hsorted
  exact fun p hp => hsorted.2.2 p hp (n, bs) (by simp)

theorem Latest.get_eq (h : fs.Latest n bs) : fs.wals.get n = some bs := by
  obtain ⟨pre, heq⟩ := h
  exact fs.wals.sorted.find_eq_some_iff.mpr (by simp [heq])

theorem Latest.le (h : fs.Latest n bs) : ∀ p ∈ fs.wals.entries, p.1 ≤ n := by
  obtain ⟨pre, heq⟩ := h
  intro p hp
  rw [heq] at hp
  rcases List.mem_append.mp hp with hp | hp
  · exact (lt_of_entries heq p hp).le
  · rw [List.mem_singleton.mp hp]

/-- Appending to the last file leaves the others. -/
theorem entries_appendWal {pre : List (Lsn × Bytes)} (h : fs.wals.entries = pre ++ [(n, bs)])
    (x : Bytes) : (fs.appendWal n x).wals.entries = pre ++ [(n, bs ++ x)] := by
  have hget : fs.wals.get n = some bs := Latest.get_eq ⟨pre, h⟩
  simp only [appendWal, hget, Option.getD_some]
  exact SortedMap.entries_insert_of_top h (lt_of_entries h) _

end Fs

theorem WalFile.header_take (m : ℕ) : WalFile X (walHeader.take m) := by
  by_cases h : m < walHeader.length
  · exact .inl (by simpa using h)
  · exact .inr ⟨[], by rw [List.take_of_length_le (by omega)]; exact .header⟩

theorem fileRecords_header_take (m : ℕ) : fileRecords X (walHeader.take m) = [] := by
  by_cases h : m < walHeader.length
  · exact fileRecords_short (by simpa using h)
  · rw [List.take_of_length_le (by omega)]
    exact WalHolds.header.fileRecords_eq

theorem WalFiles.of_appendWal {pre : List (Lsn × Bytes)} {x : Bytes} (h : WalFiles X fs)
    (heq : fs.wals.entries = pre ++ [(n, bs)]) (hfile : WalFile X (bs ++ x)) :
    WalFiles X (fs.appendWal n x) := by
  intro p hp
  rw [Fs.entries_appendWal heq x] at hp
  rcases List.mem_append.mp hp with hp | hp
  · exact h p (by simp [heq, hp])
  · rw [List.mem_singleton.mp hp]
    exact hfile

namespace WalEffect

variable {e : Effect}

/-- **What an effect does to the log.** -/
theorem walSequence_apply (he : WalEffect X e fs) :
    walSequence X (applyEffect X e fs) = logAfter X e fs := by
  cases e with
  | walCreate n =>
    have heq : (applyEffect X (.walCreate n) fs).wals.entries = fs.wals.entries ++ [(n, [])] :=
      SortedMap.entries_insert_of_lt he []
    rw [walSequence_of_entries heq, fileRecords_short (by simp [walHeader]), List.append_nil]
    rfl
  | walHeader n =>
    obtain ⟨pre, heq⟩ := he
    have hnil : fileRecords X ([] : Bytes) = [] := fileRecords_short (by simp [walHeader])
    change _ = walSequence X fs
    rw [walSequence_of_entries heq, applyEffect,
      walSequence_of_entries (Fs.entries_appendWal heq _), hnil, List.nil_append,
      WalHolds.header.fileRecords_eq]
  | walAppend n r =>
    obtain ⟨bs, rs, ⟨pre, heq⟩, hholds, hclean, hr, -⟩ := he
    rw [logAfter, walSequence_of_entries heq, applyEffect,
      walSequence_of_entries (Fs.entries_appendWal heq _), (hholds.append hclean hr).1.fileRecords_eq,
      hholds.fileRecords_eq, List.append_assoc]
  | walUnlink n =>
    obtain ⟨bs, rest, heq⟩ := he
    have hget : fs.wals.get n = some bs := fs.wals.sorted.find_eq_some_iff.mpr (by simp [heq])
    have herase : (applyEffect X (.walUnlink n) fs).wals.entries = rest :=
      SortedMap.entries_erase_of_cons heq
    rw [logAfter, walSequence, herase, walSequence, heq, hget]
    simp
  | _ => rfl

/-- **An effect that is cut short** takes place or leaves the log: an append takes place when its
whole frame is written. -/
theorem walSequence_tear (he : WalEffect X e fs) (m : ℕ) :
    walSequence X (tearEffect X e m fs) =
      match e with
      | .walAppend _ r =>
        if m < (frame (walFormat X) r).length then walSequence X fs else walSequence X fs ++ [r]
      | _ => walSequence X fs := by
  cases e with
  | walHeader n =>
    obtain ⟨pre, heq⟩ := he
    have hnil : fileRecords X ([] : Bytes) = [] := fileRecords_short (by simp [walHeader])
    rw [walSequence_of_entries heq, tearEffect, walSequence_of_entries (Fs.entries_appendWal heq _),
      hnil, List.nil_append, fileRecords_header_take]
  | walAppend n r =>
    simp only
    split
    case isTrue hm =>
      obtain ⟨bs, rs, ⟨pre, heq⟩, hholds, hclean, hr, -⟩ := he
      rw [walSequence_of_entries heq, tearEffect, walSequence_of_entries (Fs.entries_appendWal heq _),
        (hholds.append_torn hclean hr hm).fileRecords_eq, hholds.fileRecords_eq]
    case isFalse hm =>
      have htear : tearEffect X (.walAppend n r) m fs = applyEffect X (.walAppend n r) fs := by
        rw [tearEffect, List.take_of_length_le (by omega)]
        rfl
      rw [htear, he.walSequence_apply]
      rfl
  | datWrite id dat => cases m <;> rfl
  | idxWrite id idx => cases m <;> rfl
  | xfWrite id xf => cases m <;> rfl
  | metaWrite id s => cases m <;> rfl
  | stageWrite hash dat => cases m <;> rfl
  | _ => rfl

theorem walFiles_apply (he : WalEffect X e fs) (h : WalFiles X fs) :
    WalFiles X (applyEffect X e fs) := by
  cases e with
  | walCreate n =>
    have heq : (applyEffect X (.walCreate n) fs).wals.entries = fs.wals.entries ++ [(n, [])] :=
      SortedMap.entries_insert_of_lt he []
    intro p hp
    rw [heq] at hp
    rcases List.mem_append.mp hp with hp | hp
    · exact h p hp
    · rw [List.mem_singleton.mp hp]
      exact .inl (by simp [walHeader])
  | walHeader n =>
    obtain ⟨pre, heq⟩ := he
    exact h.of_appendWal heq (.inr ⟨[], .header⟩)
  | walAppend n r =>
    obtain ⟨bs, rs, ⟨pre, heq⟩, hholds, hclean, hr, -⟩ := he
    exact h.of_appendWal heq (.inr ⟨_, (hholds.append hclean hr).1⟩)
  | walUnlink n =>
    intro p hp
    exact h p (List.mem_filter.mp hp).1
  | _ => exact h

theorem walFiles_tear (he : WalEffect X e fs) (h : WalFiles X fs) (m : ℕ) :
    WalFiles X (tearEffect X e m fs) := by
  cases e with
  | walHeader n =>
    obtain ⟨pre, heq⟩ := he
    exact h.of_appendWal heq (WalFile.header_take m)
  | walAppend n r =>
    obtain ⟨bs, rs, ⟨pre, heq⟩, hholds, hclean, hr, -⟩ := he
    by_cases hm : m < (frame (walFormat X) r).length
    · exact h.of_appendWal heq (.inr ⟨_, hholds.append_torn hclean hr hm⟩)
    · refine h.of_appendWal heq (.inr ⟨rs ++ [r], ?_⟩)
      rw [List.take_of_length_le (by omega)]
      exact (hholds.append hclean hr).1
  | datWrite id dat => cases m <;> exact h
  | idxWrite id idx => cases m <;> exact h
  | xfWrite id xf => cases m <;> exact h
  | metaWrite id s => cases m <;> exact h
  | stageWrite hash dat => cases m <;> exact h
  | _ => exact h

end WalEffect

/-! ### Effects that recovery does not see -/

/-- An effect that leaves the log, whole or cut short. -/
def LeavesLog (X : Externals) (e : Effect) (fs : Fs) : Prop :=
  walSequence X (applyEffect X e fs) = walSequence X fs ∧
    ∀ m, walSequence X (tearEffect X e m fs) = walSequence X fs

/-- Replacing a file without records by another one leaves the log. -/
theorem walSequence_insert (hold : ∀ bs', fs.wals.get n = some bs' → fileRecords X bs' = [])
    (hnew : fileRecords X bs = []) :
    walSequence X { fs with wals := fs.wals.insert n bs } = walSequence X fs := by
  have hlist : ∀ l : List (Lsn × Bytes), (∀ bs', find l n = some bs' → fileRecords X bs' = []) →
      (insertEntry n bs l).flatMap (fun p => fileRecords X p.2) =
        l.flatMap fun p => fileRecords X p.2 := by
    intro l
    induction l with
    | nil => simp [insertEntry, hnew]
    | cons p l ih =>
      intro h
      rw [insertEntry]
      split
      case isTrue => simp [hnew]
      case isFalse =>
        split
        case isTrue heq =>
          have hp : fileRecords X p.2 = [] := h p.2 (by rw [find_cons, if_pos heq.symm])
          simp [hnew, hp]
        case isFalse hne =>
          rw [List.flatMap_cons, List.flatMap_cons, ih fun bs' hf => h bs' ?_]
          rw [find_cons, if_neg (Ne.symm hne), hf]
  exact hlist _ hold

namespace LeavesLog

theorem create (h : fs.wals.get n = none) : LeavesLog X (.walCreate n) fs :=
  ⟨walSequence_insert (by simp [h]) (fileRecords_short (by simp [walHeader])), fun _ => rfl⟩

theorem header (h : fs.wals.get n = some []) : LeavesLog X (.walHeader n) fs := by
  have hold : ∀ bs', fs.wals.get n = some bs' → fileRecords X bs' = [] := by
    intro bs' hget
    rw [h, Option.some.injEq] at hget
    subst hget
    exact fileRecords_short (by simp [walHeader])
  have happend : ∀ bs', fileRecords X bs' = [] →
      walSequence X (fs.appendWal n bs') = walSequence X fs := by
    intro bs' hnew
    refine walSequence_insert hold ?_
    simpa [h] using hnew
  refine ⟨happend _ WalHolds.header.fileRecords_eq, fun m => ?_⟩
  exact happend _ (fileRecords_header_take m)

end LeavesLog

section

variable {es : List Effect}

/-- Effects that leave the log leave it together. -/
theorem walSequence_run (h : (disk X).All (LeavesLog X) es fs) :
    walSequence X ((disk X).run es fs) = walSequence X fs :=
  h.run (I := fun fs' => walSequence X fs' = walSequence X fs) (fun _ _ he hI => he.1.trans hI) rfl

theorem walSequence_cut (h : (disk X).All (LeavesLog X) es fs) (n m : ℕ) :
    walSequence X ((disk X).cut es n m fs) = walSequence X fs :=
  h.cut (I := fun fs' => walSequence X fs' = walSequence X fs) (fun _ _ he hI => he.1.trans hI)
    (fun _ _ he hI m => (he.2 m).trans hI) rfl n m

end
