import FerricStore.Log.Readers

/-!
# Repairing a torn tail

`recoverTornTail` scans the log from its start, and when the scan ends inside a record it searches
the rest for a later record before it cuts the file. The search looks at every byte as a possible
header, one window of 1 MiB at a time with an overlap of a header, and hashes every candidate that
would end within the file; the hashed bytes of a window are bounded, and a search that would
exceed the bound gives up. The file is not changed by anyone else while the repair runs.
-/

namespace FerricStore.Log

open Option List BatchWrite

/-- The candidates of one window. -/
def tornTailProbeWindowBytes : Nat := 1024 * 1024

/-- How many bytes the search may hash for the candidates of one window. -/
def maxTornTailCrcBytesPerWindow : Nat := 32 * 1024 * 1024

/-- What the search for a later record found. -/
inductive TornTailProbe where
  | noLaterRecord
  | laterRecord
  | budgetExceeded
  deriving DecidableEq, Repr

/-- Whether the two system calls that change the file succeed. -/
structure RepairCalls where
  setLen : Bool := true
  syncData : Bool := true
  deriving DecidableEq, Repr

/-- The body length of the candidate at an offset, or nothing when its header announces a value
above the limit or a body past the end of the file. -/
def candidateBody (file : File) (candidateStart : Nat) (h : Header) : Option Nat := do
  let valueSize ←
    if h.isTombstone then some 0
    else if h.valueSizeRaw > maxValueSize then none
    else some h.valueSizeRaw
  let bodyLen ← checkedAdd h.keySize valueSize
  let recordLen ← checkedAdd headerSize bodyLen
  let recordEnd ← checkedAdd candidateStart recordLen
  if recordEnd > file.bytes.length then none else some bodyLen

/-- What is hashed for a candidate: its body from the window where it fits, else from the file. -/
def candidateHash (file : File) (window : Bytes) (candidateStart headerOffset bodyLen : Nat)
    (h : Header) : Result Bytes :=
  if headerOffset + headerSize + bodyLen ≤ window.length then
    .ok (h.covered ++ slice window (headerOffset + headerSize) bodyLen)
  else do
    let bodyFileOffset ← orFail (checkedAdd candidateStart headerSize)
      (.overflow "torn tail body offset")
    let (hashed, _) ← hashExact (file.bytes.drop bodyFileOffset) bodyLen h.covered
      "torn tail candidate"
    return hashed

section Checksum

variable (crc : Bytes → UInt32)

/-- Tries the candidates of a window from `candidateStart` on; no answer means that none of them
is a record and the budget was kept. -/
def probeWindow (file : File) (window : Bytes) (readStart candidateEnd : Nat) :
    Nat → Nat → Nat → Result (Option TornTailProbe)
  | 0, _, _ => .ok none
  | fuel + 1, candidateStart, crcWork =>
    if candidateEnd ≤ candidateStart then .ok none
    else
      let headerOffset := candidateStart - readStart
      let h := Header.parse (slice window headerOffset headerSize)
      match candidateBody file candidateStart h with
      | none => probeWindow file window readStart candidateEnd fuel (candidateStart + 1) crcWork
      | some bodyLen =>
        let crcLen := headerSize + bodyLen - 4
        if crcLen > maxTornTailCrcBytesPerWindow ∨
            crcWork > maxTornTailCrcBytesPerWindow - crcLen then
          .ok (some .budgetExceeded)
        else
          match candidateHash file window candidateStart headerOffset bodyLen h with
          | .error e => .error e
          | .ok hashed =>
            if (crc hashed).toNat = h.storedCrc then .ok (some .laterRecord)
            else
              probeWindow file window readStart candidateEnd fuel (candidateStart + 1)
                (crcWork + crcLen)

/-- Searches windows of `windowBytes` candidates one after another; `windowLen` is the size of the
buffer they are read into. -/
def probeLoop (file : File) (windowBytes windowLen : Nat) : Nat → Nat → Result TornTailProbe
  | 0, _ => .ok .noLaterRecord
  | fuel + 1, chunkStart =>
    let fileLen := file.bytes.length
    let maxCandidateStart := fileLen - headerSize
    if maxCandidateStart < chunkStart then .ok .noLaterRecord
    else
      let readEnd := min ((checkedAdd chunkStart windowLen).getD fileLen) fileLen
      let window := slice file.bytes chunkStart (readEnd - chunkStart)
      let nextChunkStart :=
        (checkedAdd chunkStart windowBytes).getD (maxCandidateStart + 1)
      let candidateEnd := min nextChunkStart (maxCandidateStart + 1)
      match probeWindow crc file window chunkStart candidateEnd (candidateEnd - chunkStart)
        chunkStart 0 with
      | .error e => .error e
      | .ok (some found) => .ok found
      | .ok none =>
        if candidateEnd > maxCandidateStart then .ok .noLaterRecord
        else probeLoop file windowBytes windowLen fuel nextChunkStart

/-- Searches a torn suffix for any complete record. -/
def probeTornTail (file : File) (suffixStart : Nat) : Result TornTailProbe :=
  let suffixLen := file.bytes.length - suffixStart
  if suffixLen < headerSize then .ok .noLaterRecord
  else
    let windowLen := min (tornTailProbeWindowBytes + (headerSize - 1)) suffixLen
    probeLoop crc file tornTailProbeWindowBytes windowLen (file.bytes.length + 1) suffixStart

/-- Scans records until the end of the file or a torn record: where the last complete record ends,
and whether a torn record follows. -/
def scanValid : Nat → Bytes → Nat → Result (Nat × Bool)
  | 0, _, validEnd => .ok (validEnd, false)
  | fuel + 1, rest, validEnd =>
    match readNextRecordMetadata crc rest validEnd with
    | .ok (some (record, rest)) => do
      let next ← orFail (checkedAdd validEnd record.recordSize) (.overflow "record offset")
      scanValid fuel rest next
    | .ok none => .ok (validEnd, false)
    | .error e => if e.isTruncatedRecord then .ok (validEnd, true) else .error e

/-- The checks between the scan and the cut. -/
def checkTornTail (file : File) (validEnd : Nat) (sawTruncatedTail : Bool) : Result Unit :=
  let fileLen := file.bytes.length
  if validEnd > fileLen then .error (.grewWhileRecovering validEnd fileLen)
  else if sawTruncatedTail && headerSize ≤ fileLen - validEnd then
    match probeTornTail crc file validEnd with
    | .error e => .error e
    | .ok .noLaterRecord => .ok ()
    | .ok .laterRecord => .error (.ambiguousTail validEnd fileLen "later record candidate")
    | .ok .budgetExceeded => .error (.ambiguousTail validEnd fileLen "probe budget exceeded")
  else .ok ()

variable (calls : RepairCalls)

/-- Cuts the file to `validEnd` and syncs it; a failed sync leaves the file cut. -/
def cutTornTail (file : File) (validEnd : Nat) : Result Nat × Bytes :=
  if validEnd < file.bytes.length then
    if calls.setLen then
      if calls.syncData then (.ok validEnd, resize file.bytes validEnd)
      else (.error (.io "sync_data failed"), resize file.bytes validEnd)
    else (.error (.io "set_len failed"), file.bytes)
  else (.ok validEnd, file.bytes)

/-- The repair: its result and the contents it leaves. -/
def recoverTornTail (file : File) : Result Nat × Bytes :=
  match scanValid crc (file.bytes.length + 1) file.bytes 0 with
  | .error e => (.error e, file.bytes)
  | .ok (validEnd, sawTruncatedTail) =>
    match checkTornTail crc file validEnd sawTruncatedTail with
    | .error e => (.error e, file.bytes)
    | .ok () => cutTornTail calls file validEnd

/-! ## What the scan finds -/

/-- A sequence of complete records. -/
inductive Records : Bytes → Prop where
  | nil : Records []
  | cons {rest : Bytes} {record : Record} {len : Nat} :
      decodeRecord crc rest = some (record, len) → Records (rest.drop len) → Records rest

theorem checked_add_eq_some {a b c : Nat} : checkedAdd a b = some c ↔ a + b < 2 ^ 64 ∧ a + b = c := by
  rw [checkedAdd, ite_none_right_eq_some, some.injEq]

variable {record : Record}

/-- What the scan read is a sequence of complete records, and what is left is empty or starts with
a torn record. -/
theorem scan_valid_ok {fuel : Nat} :
    ∀ {rest : Bytes} {validEnd stop : Nat} {torn : Bool}, rest.length < fuel →
      scanValid crc fuel rest validEnd = .ok (stop, torn) →
      ∃ done left, rest = done ++ left ∧ Records crc done ∧ stop = validEnd + done.length ∧
        (torn = false → left = []) := by
  induction fuel with
  | zero =>
    intro rest validEnd stop torn hfuel
    omega
  | succ fuel ih =>
    intro rest validEnd stop torn hfuel h
    unfold scanValid at h
    split at h
    · rename_i found later hread
      obtain ⟨record, len, hdecode, rfl, rfl⟩ := (read_next_record_metadata_iff crc _).mp hread
      obtain ⟨hheader, hlen⟩ := decode_record_len crc hdecode
      obtain ⟨next, hadd, h⟩ := bind_eq_ok_iff.mp h
      obtain ⟨-, rfl⟩ := checked_add_eq_some.mp (orFail_eq_ok_iff.mp hadd)
      have hshort : (rest.drop len).length < fuel := by
        simp only [headerSize] at hheader
        rw [length_drop]
        omega
      obtain ⟨done, left, hsplit, hdone, rfl, htorn⟩ := ih hshort h
      refine ⟨rest.take len ++ done, left, ?_, .cons (decode_record_take crc done hdecode) ?_, ?_,
        htorn⟩
      · rw [append_assoc, ← hsplit, take_append_drop]
      · rwa [drop_left' (by rw [length_take]; omega)]
      · rw [length_append, length_take, Nat.min_eq_left hlen, ← Nat.add_assoc]
        rfl
    · rename_i hread
      cases h
      exact ⟨[], rest, rfl, .nil, rfl,
        fun _ => (read_next_record_metadata_none_iff crc).mp hread⟩
    · split_ifs at h
      cases h
      exact ⟨[], rest, rfl, .nil, rfl, fun h => by cases h⟩

/-! ## What the search finds -/

/-- The bytes hashed for the candidate at an offset. -/
def candidateWork (file : File) (candidateStart : Nat) : Nat :=
  match candidateBody file candidateStart (frontHeader (file.bytes.drop candidateStart)) with
  | none => 0
  | some bodyLen => headerSize + bodyLen - 4

/-- The bytes hashed for `count` candidates in a row. -/
def windowWork (file : File) (start : Nat) : Nat → Nat
  | 0 => 0
  | count + 1 => candidateWork file start + windowWork file (start + 1) count

variable {file : File}

/-- A candidate is hashed when its header announces an allowed value and its body is there. -/
theorem candidate_body_iff {start bodyLen : Nat} {h : Header} :
    candidateBody file start h = some bodyLen ↔
      ∃ valueSize, decodedValueSize h.valueSizeRaw h.isTombstone = .ok valueSize ∧
        bodyLen = h.keySize + valueSize ∧ start + (headerSize + bodyLen) ≤ file.bytes.length := by
  have hlen := file.len_lt
  simp only [maxOffset] at hlen
  -- a file ends far below the overflow bound, so only its end decides
  have htail : ∀ valueSize, ((checkedAdd h.keySize valueSize).bind fun bodyLen =>
        (checkedAdd headerSize bodyLen).bind fun recordLen =>
          (checkedAdd start recordLen).bind fun recordEnd =>
            if recordEnd > file.bytes.length then none else some bodyLen) = some bodyLen ↔
        bodyLen = h.keySize + valueSize ∧ start + (headerSize + bodyLen) ≤ file.bytes.length := by
    intro valueSize
    simp only [bind_eq_some_iff, checked_add_eq_some, ite_none_left_eq_some, some.injEq, headerSize]
    constructor
    · rintro ⟨_, ⟨-, rfl⟩, _, ⟨-, rfl⟩, _, ⟨-, rfl⟩, hfit, rfl⟩
      exact ⟨rfl, not_lt.mp hfit⟩
    · rintro ⟨rfl, hfit⟩
      exact ⟨_, ⟨by omega, rfl⟩, _, ⟨by omega, rfl⟩, _, ⟨by omega, rfl⟩, not_lt.mpr hfit, rfl⟩
  unfold candidateBody decodedValueSize
  by_cases htomb : h.isTombstone = true
  · simp only [if_pos htomb, Except.ok.injEq, exists_eq_left']
    exact htail 0
  · by_cases hmax : h.valueSizeRaw > maxValueSize
    · simp [if_neg htomb, if_pos hmax]
    · simp only [if_neg htomb, if_neg hmax, Except.ok.injEq, exists_eq_left']
      exact htail _

variable {start : Nat}

/-- There is a record at an offset exactly when its candidate is hashed and the checksum fits. -/
theorem decode_candidate_iff : decodeRecord crc (file.bytes.drop start) ≠ none ↔ ∃ bodyLen,
        candidateBody file start (frontHeader (file.bytes.drop start)) = some bodyLen ∧
        (crc ((frontHeader (file.bytes.drop start)).covered ++
          slice file.bytes (start + headerSize) bodyLen)).toNat =
            (frontHeader (file.bytes.drop start)).storedCrc := by
  simp only [candidate_body_iff]
  rw [ne_none_iff_exists']
  simp only [Prod.exists, decode_record_whole, Whole, slice_drop, length_drop]
  constructor
  · rintro ⟨record, len, valueSize, ⟨hvalue, hfit, hcrc⟩, -, -⟩
    refine ⟨_, ⟨valueSize, hvalue, rfl, ?_⟩, ?_⟩
    · simp only [headerSize] at hfit ⊢
      omega
    · rw [slice_add, Nat.add_assoc]
      exact hcrc
  · rintro ⟨bodyLen, ⟨valueSize, hvalue, rfl, hfit⟩, hcrc⟩
    refine ⟨_, _, valueSize, ⟨hvalue, by omega, ?_⟩, rfl, rfl⟩
    rwa [slice_add, Nat.add_assoc] at hcrc

/-- A candidate whose body is there is hashed from its own bytes, in the window or past it. -/
theorem candidate_hash_eq {readStart windowLen start bodyLen : Nat} {h : Header}
    (hstart : readStart ≤ start) (hfit : start + (headerSize + bodyLen) ≤ file.bytes.length) :
    candidateHash file (slice file.bytes readStart windowLen) start (start - readStart) bodyLen h =
      .ok (h.covered ++ slice file.bytes (start + headerSize) bodyLen) := by
  unfold candidateHash
  split
  · have hbound := length_slice file.bytes readStart windowLen
    rw [slice_slice (by omega), show readStart + (start - readStart + headerSize) =
      start + headerSize by omega]
  · have hadd : start + headerSize ≤ file.bytes.length := by omega
    rw [checked_add_of_le hadd, orFail_some, ok_bind, hash_exact_eq, if_pos (by
      rw [length_drop]
      omega)]
    rfl

/-- What the answer of a window says about its candidates. -/
def WindowVerdict (file : File) (start count crcWork : Nat) : Option TornTailProbe → Prop
  | none => (∀ i < count, decodeRecord crc (file.bytes.drop (start + i)) = none) ∧
      crcWork + windowWork file start count ≤ maxTornTailCrcBytesPerWindow
  | some .laterRecord => ∃ i < count, decodeRecord crc (file.bytes.drop (start + i)) ≠ none
  | some .budgetExceeded => maxTornTailCrcBytesPerWindow < crcWork + windowWork file start count
  | some .noLaterRecord => False

/-- The verdict on a window from the verdict on all its candidates but the first. -/
theorem window_verdict_cons {start count crcWork : Nat} {verdict : Option TornTailProbe}
    (hfirst : decodeRecord crc (file.bytes.drop start) = none)
    (hrest : WindowVerdict crc file (start + 1) count (crcWork + candidateWork file start) verdict) :
    WindowVerdict crc file start (count + 1) crcWork verdict := by
  cases verdict with
  | none =>
    obtain ⟨hnone, hwork⟩ := hrest
    refine ⟨fun i hi => ?_, by rw [windowWork]; omega⟩
    cases i with
    | zero => exact hfirst
    | succ i =>
      rw [Nat.add_comm i 1, ← Nat.add_assoc]
      exact hnone i (by omega)
  | some found =>
    cases found with
    | noLaterRecord => exact hrest
    | laterRecord =>
      obtain ⟨i, hi, hdecode⟩ := hrest
      exact ⟨i + 1, by omega, by rwa [Nat.add_comm i 1, ← Nat.add_assoc]⟩
    | budgetExceeded =>
      simp only [WindowVerdict, windowWork] at hrest ⊢
      omega

/-- The search of a window answers, and its answer is right. -/
theorem probe_window_verdict {readStart windowLen candidateEnd : Nat}
    (hcover : ∀ o < candidateEnd, o - readStart + headerSize ≤ windowLen) {count : Nat} :
    ∀ (start crcWork : Nat), readStart ≤ start → start + count = candidateEnd →
      crcWork ≤ maxTornTailCrcBytesPerWindow →
      ∃ verdict, probeWindow crc file (slice file.bytes readStart windowLen) readStart candidateEnd
          count start crcWork = .ok verdict ∧
        WindowVerdict crc file start count crcWork verdict := by
  induction count with
  | zero =>
    intro start crcWork hstart hend hwork
    exact ⟨none, rfl, fun i hi => absurd hi (by omega), hwork⟩
  | succ count ih =>
    intro start crcWork hstart hend hwork
    have hheader : Header.parse (slice (slice file.bytes readStart windowLen)
        (start - readStart) headerSize) = frontHeader (file.bytes.drop start) := by
      rw [slice_slice (hcover start (by omega)), frontHeader, slice_drop,
        Nat.add_sub_cancel' hstart, Nat.add_zero]
    unfold probeWindow
    dsimp only
    rw [if_neg (by omega), hheader]
    cases hbody : candidateBody file start (frontHeader (file.bytes.drop start)) with
    | none =>
      have hfree : candidateWork file start = 0 := by simp only [candidateWork, hbody]
      have hfirst : decodeRecord crc (file.bytes.drop start) = none := by
        by_contra hdecode
        obtain ⟨bodyLen, hsome, -⟩ := (decode_candidate_iff crc).mp hdecode
        rw [hbody] at hsome
        cases hsome
      obtain ⟨verdict, hrun, hverdict⟩ := ih (start + 1) crcWork (by omega) (by omega) hwork
      exact ⟨verdict, hrun, window_verdict_cons crc hfirst (by rwa [hfree])⟩
    | some bodyLen =>
      have hcost : candidateWork file start = headerSize + bodyLen - 4 := by
        simp [candidateWork, hbody]
      obtain ⟨_, -, -, hfit⟩ := candidate_body_iff.mp hbody
      dsimp only
      split
      · refine ⟨some .budgetExceeded, rfl, ?_⟩
        simp only [WindowVerdict, windowWork, hcost]
        omega
      · rw [candidate_hash_eq hstart hfit]
        dsimp only
        split
        · rename_i hcrc
          exact ⟨some .laterRecord, rfl, 0, by omega,
            (decode_candidate_iff crc).mpr ⟨bodyLen, hbody, hcrc⟩⟩
        · rename_i hcrc
          have hfirst : decodeRecord crc (file.bytes.drop start) = none := by
            by_contra hdecode
            obtain ⟨bodyLen', hsome, hcrc'⟩ := (decode_candidate_iff crc).mp hdecode
            rw [hbody] at hsome
            cases hsome
            exact hcrc hcrc'
          obtain ⟨verdict, hrun, hverdict⟩ := ih (start + 1)
            (crcWork + (headerSize + bodyLen - 4)) (by omega) (by omega) (by omega)
          exact ⟨verdict, hrun, window_verdict_cons crc hfirst (by rwa [hcost])⟩

/-- Nothing is hashed where no header fits. -/
theorem window_work_past_end (h : file.bytes.length < start + headerSize) (count : Nat) :
    windowWork file start count = 0 := by
  induction count generalizing start with
  | zero => rfl
  | succ count ih =>
    have hfree : candidateWork file start = 0 := by
      unfold candidateWork
      split
      · rfl
      · rename_i bodyLen hbody
        obtain ⟨_, -, -, hfit⟩ := candidate_body_iff.mp hbody
        omega
    rw [windowWork, hfree, ih (by omega)]

/-- The work of a window is that of its first part and that of the rest. -/
theorem window_work_add (file : File) (start a b : Nat) :
    windowWork file start (a + b) = windowWork file start a + windowWork file (start + a) b := by
  induction a generalizing start with
  | zero => simp [windowWork]
  | succ a ih =>
    rw [Nat.add_right_comm, windowWork, ih, windowWork, Nat.add_right_comm start 1 a,
      Nat.add_assoc start a 1, Nat.add_assoc]

/-- No record starts where no header fits. -/
theorem decode_past_end (h : file.bytes.length < start + headerSize) :
    decodeRecord crc (file.bytes.drop start) = none := by
  cases hdecode : decodeRecord crc (file.bytes.drop start) with
  | none => rfl
  | some found =>
    obtain ⟨hheader, hlen⟩ := decode_record_len crc hdecode
    rw [length_drop] at hlen
    simp only [headerSize] at h hheader
    omega

/-- The work of every window from `start` on stays within the budget. -/
def WithinBudget (file : File) (windowBytes start : Nat) : Prop :=
  ∀ k, windowWork file (start + k * windowBytes) windowBytes ≤
    maxTornTailCrcBytesPerWindow

/-- What the answer of the search says about the suffix from `start` on. -/
def ProbeVerdict (file : File) (windowBytes start : Nat) : TornTailProbe → Prop
  | .noLaterRecord => (∀ o, start ≤ o → decodeRecord crc (file.bytes.drop o) = none) ∧
      WithinBudget file windowBytes start
  | .laterRecord => ∃ o, start ≤ o ∧ decodeRecord crc (file.bytes.drop o) ≠ none
  | .budgetExceeded => ¬ WithinBudget file windowBytes start

variable {windowBytes : Nat}

/-- Where no header fits there is nothing to find. -/
theorem probe_verdict_past_end {start : Nat} (h : file.bytes.length < start + headerSize) :
    ProbeVerdict crc file windowBytes start .noLaterRecord := by
  refine ⟨fun o ho => decode_past_end crc (by omega), fun k => ?_⟩
  rw [window_work_past_end (by omega)]
  exact Nat.zero_le _

/-- The verdict on a suffix from those on its first window and on what follows. -/
theorem probe_verdict_next {start : Nat} {found : TornTailProbe}
    (hfirst : WindowVerdict crc file start windowBytes 0 none)
    (hrest : ProbeVerdict crc file windowBytes (start + windowBytes) found) :
    ProbeVerdict crc file windowBytes start found := by
  obtain ⟨hnone, hwork⟩ := hfirst
  have hbudget : WithinBudget file windowBytes (start + windowBytes) ↔
      WithinBudget file windowBytes start := by
    constructor
    · intro h k
      cases k with
      | zero => simpa using hwork
      | succ k =>
        have hk := h k
        rwa [Nat.add_assoc, Nat.add_comm windowBytes, ← Nat.succ_mul] at hk
    · intro h k
      have hk := h (k + 1)
      rwa [Nat.succ_mul, Nat.add_comm (k * _), ← Nat.add_assoc] at hk
  cases found with
  | noLaterRecord =>
    refine ⟨fun o ho => ?_, hbudget.mp hrest.2⟩
    by_cases hin : o < start + windowBytes
    · have ho' := hnone (o - start) (by omega)
      rwa [Nat.add_sub_cancel' ho] at ho'
    · exact hrest.1 o (by omega)
  | laterRecord =>
    obtain ⟨o, ho, hdecode⟩ := hrest
    exact ⟨o, by omega, hdecode⟩
  | budgetExceeded => exact fun h => hrest (hbudget.mpr h)

/-- A window that reaches the last candidate speaks for a whole window. -/
theorem window_verdict_last {start count : Nat} (hcount : count ≤ windowBytes)
    (hlast : count < windowBytes → file.bytes.length < start + count + headerSize)
    {verdict : Option TornTailProbe} (h : WindowVerdict crc file start count 0 verdict) :
    WindowVerdict crc file start windowBytes 0 verdict := by
  by_cases hfull : count = windowBytes
  · rwa [hfull] at h
  · have hend := hlast (by omega)
    have hwork : windowWork file start windowBytes = windowWork file start count := by
      rw [← Nat.add_sub_cancel' hcount, window_work_add, window_work_past_end hend, Nat.add_zero]
    cases verdict with
    | none =>
      refine ⟨fun i hi => ?_, by rw [hwork]; exact h.2⟩
      by_cases hin : i < count
      · exact h.1 i hin
      · exact decode_past_end crc (by omega)
    | some found =>
      cases found with
      | noLaterRecord => exact h
      | laterRecord =>
        obtain ⟨i, hi, hdecode⟩ := h
        exact ⟨i, by omega, hdecode⟩
      | budgetExceeded =>
        simp only [WindowVerdict, hwork] at h ⊢
        exact h

/-- The search answers, and its answer is right. The buffer holds a window and the overlap, or
all that is left of the file. -/
theorem probe_loop_verdict {windowLen : Nat} (hpos : 0 < windowBytes)
    (hsmall : windowBytes ≤ 2 ^ 62) (hcap : windowLen ≤ windowBytes + (headerSize - 1))
    {fuel : Nat} :
    ∀ (start : Nat), file.bytes.length < start + fuel →
      (windowLen = windowBytes + (headerSize - 1) ∨
        file.bytes.length ≤ start + windowLen) → headerSize ≤ file.bytes.length →
      ∃ found, probeLoop crc file windowBytes windowLen fuel start = .ok found ∧
        ProbeVerdict crc file windowBytes start found := by
  have hlt := file.len_lt
  simp only [maxOffset] at hlt
  induction fuel with
  | zero =>
    intro start hfuel hwindow hheader
    exact ⟨_, rfl, probe_verdict_past_end crc (by omega)⟩
  | succ fuel ih =>
    intro start hfuel hwindow hheader
    unfold probeLoop
    by_cases hpast : file.bytes.length - headerSize < start
    · rw [if_pos hpast]
      exact ⟨_, rfl, probe_verdict_past_end crc (by omega)⟩
    · have hread : checkedAdd start windowLen = some (start + windowLen) := by
        rw [checkedAdd, if_pos (by omega)]
      have hnext : checkedAdd start windowBytes = some (start + windowBytes) := by
        rw [checkedAdd, if_pos (by omega)]
      rw [if_neg hpast, hread, hnext]
      simp only [getD_some]
      set candidateEnd := min (start + windowBytes)
        (file.bytes.length - headerSize + 1) with hcandidateEnd
      have hcount : start + (candidateEnd - start) = candidateEnd := by omega
      have hcover : ∀ o < candidateEnd, o - start + headerSize ≤
          min (start + windowLen) file.bytes.length - start := by
        intro o ho
        omega
      obtain ⟨verdict, hrun, hverdict⟩ :=
        probe_window_verdict crc hcover start 0 le_rfl hcount (Nat.zero_le _)
      have hwhole : WindowVerdict crc file start windowBytes 0 verdict :=
        window_verdict_last crc (by omega) (by omega) hverdict
      rw [hrun]
      cases verdict with
      | none =>
        dsimp only
        split
        · refine ⟨_, rfl, probe_verdict_next crc hwhole (probe_verdict_past_end crc ?_)⟩
          omega
        · obtain ⟨found, hloop, hfound⟩ := ih (start + windowBytes) (by omega) (by omega) hheader
          exact ⟨found, hloop, probe_verdict_next crc hwhole hfound⟩
      | some found =>
        refine ⟨found, rfl, ?_⟩
        cases found with
        | noLaterRecord => exact hwhole.elim
        | laterRecord =>
          obtain ⟨i, -, hdecode⟩ := hwhole
          exact ⟨start + i, by omega, hdecode⟩
        | budgetExceeded =>
          intro hbudget
          have hfirst := hbudget 0
          simp only [WindowVerdict, Nat.zero_mul, Nat.add_zero, Nat.zero_add] at hfirst hwhole
          omega

/-- The search of a torn suffix answers, and its answer is right. -/
theorem probe_torn_tail_verdict (hstart : start ≤ file.bytes.length) :
    ∃ found, probeTornTail crc file start = .ok found ∧
      ProbeVerdict crc file tornTailProbeWindowBytes start found := by
  unfold probeTornTail
  dsimp only
  split
  · exact ⟨_, rfl, probe_verdict_past_end crc (by omega)⟩
  · refine probe_loop_verdict crc (by decide) (by decide) (Nat.min_le_left _ _) start (by omega) ?_
      (by omega)
    rcases Nat.le_total (tornTailProbeWindowBytes + (headerSize - 1))
      (file.bytes.length - start) with hle | hle
    · exact .inl (Nat.min_eq_left hle)
    · exact .inr (by rw [Nat.min_eq_right hle]; omega)

/-! ## The repair -/

/-- The encoding of a validated batch is a sequence of complete records. -/
theorem records_encode_entries (clock : Nat → UInt64) {entries : List BatchWrite}
    (hvalid : validateBatchWrites entries = .ok ()) :
    Records crc (encodeEntriesInto crc clock [] entries) := by
  induction entries generalizing clock with
  | nil => exact .nil
  | cons entry rest ih =>
    obtain ⟨hentry, hrest⟩ := validate_batch_writes_cons.mp hvalid
    rw [encode_entries_into_cons]
    refine .cons (decode_encode_into crc hentry (clock 0) _) ?_
    rw [← length_encode_into crc (clock 0) entry, drop_left]
    exact ih _ hrest

variable {len n : Nat}

/-- A part of a record is not a record. -/
theorem decode_record_torn {rest : Bytes}
    (hdecode : decodeRecord crc rest = some (record, len)) (hn : n < len) :
    decodeRecord crc (rest.take n) = none := by
  cases hcut : decodeRecord crc (rest.take n) with
  | none => rfl
  | some found =>
    obtain ⟨record', len'⟩ := found
    obtain ⟨hheader, hlen⟩ := decode_record_len crc hcut
    rw [length_take] at hlen
    simp only [headerSize] at hheader
    obtain ⟨e, herror, -⟩ := read_next_record_metadata_torn crc 0 hdecode (by omega) hn
    rw [(read_next_record_metadata_iff crc 0).mpr ⟨record', len', hcut, rfl, rfl⟩] at herror
    cases herror

/-- The scan reads complete records and stops at the torn one. -/
theorem scan_valid_torn {done whole : Bytes}
    (hdone : Records crc done) (hdecode : decodeRecord crc whole = some (record, len))
    (hn : n < len) :
    ∀ (fuel validEnd : Nat), done.length < fuel → validEnd + done.length < maxOffset →
      scanValid crc fuel (done ++ whole.take n) validEnd =
        .ok (validEnd + done.length, decide (0 < n)) := by
  induction hdone with
  | nil =>
    intro fuel validEnd hfuel hbound
    obtain ⟨fuel, rfl⟩ : ∃ m, fuel = m + 1 := ⟨fuel - 1, by omega⟩
    unfold scanValid
    rw [nil_append]
    by_cases hpos : 0 < n
    · obtain ⟨e, herror, htorn⟩ := read_next_record_metadata_torn crc validEnd hdecode hpos hn
      simp [herror, htorn, hpos]
    · obtain rfl : n = 0 := by omega
      rw [take_zero, (read_next_record_metadata_none_iff crc).mpr rfl]
      simp
  | @cons rest record' len' hfirst hrest ih =>
    intro fuel validEnd hfuel hbound
    obtain ⟨fuel, rfl⟩ : ∃ m, fuel = m + 1 := ⟨fuel - 1, by omega⟩
    obtain ⟨hheader, hlen⟩ := decode_record_len crc hfirst
    simp only [headerSize] at hheader
    simp only [maxOffset] at hbound
    -- what follows a record does not change it
    have hdecoded := decode_record_take crc (rest.drop len' ++ whole.take n) hfirst
    rw [← append_assoc, take_append_drop] at hdecoded
    have hread := (read_next_record_metadata_iff crc validEnd).mpr
      ⟨record', len', hdecoded, rfl, rfl⟩
    have hadd : checkedAdd validEnd len' = some (validEnd + len') := by
      rw [checkedAdd, if_pos (by omega)]
    have hleft : (rest.drop len').length = rest.length - len' := length_drop
    unfold scanValid
    rw [hread]
    simp only [Record.metadata, hadd, orFail_some, ok_bind]
    rw [drop_append_of_le_length hlen, ih _ _ (by omega) (by simp only [maxOffset]; omega)]
    congr 2
    omega

/-- When the checks pass, what is cut off holds no record. -/
theorem check_torn_tail_ok {validEnd : Nat} {torn : Bool}
    (htorn : torn = false → validEnd = file.bytes.length)
    (h : checkTornTail crc file validEnd torn = .ok ()) :
    validEnd ≤ file.bytes.length ∧
      ∀ o, validEnd ≤ o → decodeRecord crc (file.bytes.drop o) = none := by
  unfold checkTornTail at h
  dsimp only at h
  split at h
  · cases h
  · refine ⟨by omega, ?_⟩
    split at h
    · obtain ⟨found, hprobe, hverdict⟩ :=
        probe_torn_tail_verdict crc (by omega : validEnd ≤ file.bytes.length)
      rw [hprobe] at h
      cases found with
      | noLaterRecord => exact hverdict.1
      | laterRecord => cases h
      | budgetExceeded => cases h
    · rename_i hprobe
      intro o ho
      refine decode_past_end crc ?_
      cases torn with
      | false =>
        have := htorn rfl
        simp only [headerSize]
        omega
      | true =>
        simp only [Bool.true_and, decide_eq_true_eq] at hprobe
        omega

theorem resize_of_le {bytes : Bytes} {size : Nat} (hle : size ≤ bytes.length) :
    resize bytes size = bytes.take size := by
  rw [resize, Nat.sub_eq_zero_of_le hle, replicate_zero, append_nil]

/-- What the cut leaves. -/
theorem cut_torn_tail_cases {validEnd : Nat} (hle : validEnd ≤ file.bytes.length) :
    (∃ e, cutTornTail calls file validEnd = (.error e, file.bytes)) ∨
      ((cutTornTail calls file validEnd).2 = file.bytes.take validEnd ∧
        ((cutTornTail calls file validEnd).1 = .ok validEnd ∨
          calls.syncData = false ∧ ∃ e, (cutTornTail calls file validEnd).1 = .error e)) := by
  unfold cutTornTail
  split
  · split
    · split
      · exact .inr ⟨resize_of_le hle, .inl rfl⟩
      · rename_i hsync
        exact .inr ⟨resize_of_le hle, .inr ⟨by simpa using hsync, _, rfl⟩⟩
    · exact .inl ⟨_, rfl⟩
  · exact .inr ⟨by rw [take_of_length_le (by omega)], .inl rfl⟩

/-- On any file the repair fails and changes nothing, or cuts the file after complete records and
discards no record; an error after the cut is the failure of the sync. -/
theorem recover_torn_tail_cases (file : File) :
    (∃ e, recoverTornTail crc calls file = (.error e, file.bytes)) ∨ ∃ validEnd ≤ file.bytes.length,
        (recoverTornTail crc calls file).2 = file.bytes.take validEnd ∧
        ((recoverTornTail crc calls file).1 = .ok validEnd ∨
          calls.syncData = false ∧ ∃ e, (recoverTornTail crc calls file).1 = .error e) ∧
        Records crc (file.bytes.take validEnd) ∧
        ∀ o, validEnd ≤ o → decodeRecord crc (file.bytes.drop o) = none := by
  unfold recoverTornTail
  split
  · exact .inl ⟨_, rfl⟩
  · rename_i validEnd torn hscan
    split
    · exact .inl ⟨_, rfl⟩
    · rename_i hcheck
      obtain ⟨done, left, hsplit, hdone, hend, htorn⟩ := scan_valid_ok crc (by omega) hscan
      rw [Nat.zero_add] at hend
      have hprefix : file.bytes.take validEnd = done := by
        rw [hsplit, hend, take_left]
      obtain ⟨hle, hnone⟩ := check_torn_tail_ok crc (fun h => by
        rw [hend, hsplit, htorn h, append_nil]) hcheck
      rcases cut_torn_tail_cases calls hle with herror | ⟨hfile, hresult⟩
      · exact .inl herror
      · exact .inr ⟨validEnd, hle, hfile, hresult, hprefix ▸ hdone, hnone⟩

/-- Complete records followed by a torn one: the file is cut exactly where the torn record starts,
unless a window of the search exceeds its budget, and then nothing is changed. -/
theorem recover_torn_tail_exact {done whole : Bytes}
    (hdone : Records crc done) (hdecode : decodeRecord crc whole = some (record, len))
    (hn : n < len) (hfile : file.bytes = done ++ whole.take n)
    (hnone : ∀ o, decodeRecord crc ((whole.take n).drop o) = none) :
    (WithinBudget file tornTailProbeWindowBytes done.length →
      recoverTornTail crc {} file = (.ok done.length, done)) ∧
    (¬ WithinBudget file tornTailProbeWindowBytes done.length → recoverTornTail crc {} file =
        (.error (.ambiguousTail done.length file.bytes.length "probe budget exceeded"),
          file.bytes)) := by
  have hlt := file.len_lt
  have hlen : file.bytes.length = done.length + (whole.take n).length := by
    rw [hfile, length_append]
  have hscan : scanValid crc (file.bytes.length + 1) file.bytes 0 =
      .ok (done.length, decide (0 < n)) := by
    have htorn := scan_valid_torn crc hdone hdecode hn (file.bytes.length + 1) 0 (by omega)
      (by omega)
    rwa [← hfile, Nat.zero_add] at htorn
  have hsuffix : ∀ o, done.length ≤ o → decodeRecord crc (file.bytes.drop o) = none := by
    intro o ho
    obtain ⟨i, rfl⟩ := Nat.exists_eq_add_of_le ho
    rw [hfile, ← drop_drop, drop_left]
    exact hnone i
  have hcut : cutTornTail {} file done.length = (.ok done.length, done) := by
    have hresize : resize file.bytes done.length = done := by
      rw [resize_of_le (by omega), hfile, take_left]
    unfold cutTornTail
    split
    · simp [hresize]
    · have hempty : whole.take n = [] := eq_nil_of_length_eq_zero (by omega)
      rw [hfile, hempty, append_nil]
  unfold recoverTornTail
  rw [hscan]
  dsimp only
  by_cases hprobe : (decide (0 < n) && decide (headerSize ≤ file.bytes.length - done.length)) = true
  · obtain ⟨found, hfound, hverdict⟩ :=
      probe_torn_tail_verdict crc (by omega : done.length ≤ file.bytes.length)
    unfold checkTornTail
    rw [if_neg (by omega), if_pos hprobe, hfound]
    cases found with
    | noLaterRecord => exact ⟨fun _ => hcut, fun h => absurd hverdict.2 h⟩
    | laterRecord =>
      obtain ⟨o, ho, hsome⟩ := hverdict
      exact absurd (hsuffix o ho) hsome
    | budgetExceeded => exact ⟨fun h => absurd h hverdict, fun _ => rfl⟩
  · have hshort : file.bytes.length < done.length + headerSize := by
      simp only [Bool.and_eq_true, decide_eq_true_eq, not_and] at hprobe
      rw [length_take] at hlen
      rcases Nat.eq_zero_or_pos n with rfl | hpos
      · simp only [headerSize]
        omega
      · omega
    unfold checkTornTail
    rw [if_neg (by omega), if_neg hprobe]
    exact ⟨fun _ => hcut, fun h => absurd (probe_verdict_past_end crc hshort).2 h⟩

/-- The repair never discards a complete record, and after a batch and a torn record without a
record inside it cuts exactly the torn record, or keeps the file when a window of the search
exceeds its budget. -/
theorem recover_torn_tail_keeps_records : (∀ (calls : RepairCalls) (file : File),
      (∃ e, recoverTornTail crc calls file = (.error e, file.bytes)) ∨
        ∃ validEnd ≤ file.bytes.length,
          (recoverTornTail crc calls file).2 = file.bytes.take validEnd ∧
          ((recoverTornTail crc calls file).1 = .ok validEnd ∨
            calls.syncData = false ∧ ∃ e, (recoverTornTail crc calls file).1 = .error e) ∧
          Records crc (file.bytes.take validEnd) ∧
          ∀ o, validEnd ≤ o → decodeRecord crc (file.bytes.drop o) = none) ∧
    (∀ (clock : Nat → UInt64) (entries : List BatchWrite) (entry : BatchWrite) (nowMs : UInt64)
      (n : Nat) (file : File),
      validateBatchWrites entries = .ok () → entry.validate = .ok () → n < entry.len →
      file.bytes = encodeEntriesInto crc clock [] entries ++
        (entry.encodeInto crc [] nowMs).take n →
      (∀ o, decodeRecord crc (((entry.encodeInto crc [] nowMs).take n).drop o) = none) →
      (WithinBudget file tornTailProbeWindowBytes (entries.map BatchWrite.len).sum →
        recoverTornTail crc {} file =
          (.ok (entries.map BatchWrite.len).sum, encodeEntriesInto crc clock [] entries)) ∧
      (¬ WithinBudget file tornTailProbeWindowBytes (entries.map BatchWrite.len).sum →
        recoverTornTail crc {} file =
          (.error (.ambiguousTail (entries.map BatchWrite.len).sum file.bytes.length
            "probe budget exceeded"), file.bytes))) := by
  refine ⟨recover_torn_tail_cases crc, ?_⟩
  intro clock entries entry nowMs n file hvalid hentry hn hfile hnone
  have hdecode := decode_encode_into crc hentry nowMs []
  rw [append_nil] at hdecode
  rw [← length_encode_entries_into crc clock entries]
  exact recover_torn_tail_exact crc (records_encode_entries crc clock hvalid) hdecode hn hfile hnone

theorem Records.append {first second : Bytes} (h : Records crc first)
    (hsecond : Records crc second) : Records crc (first ++ second) := by
  induction h with
  | nil => exact hsecond
  | @cons rest record len hfirst hrest ih =>
    have hdecoded := decode_record_take crc (rest.drop len ++ second) hfirst
    rw [← append_assoc, take_append_drop] at hdecoded
    refine .cons hdecoded ?_
    rwa [drop_append_of_le_length (decode_record_len crc hfirst).2]

/-- A repaired file is safe from later repairs: whatever batch is appended to it, or none, the next
repair keeps every byte. -/
theorem repaired_log_keeps_appends (calls : RepairCalls) (file later : File)
    (clock : Nat → UInt64) (entries : List BatchWrite)
    (hrepaired : (recoverTornTail crc calls file).1.isOk = true)
    (hvalid : validateBatchWrites entries = .ok ())
    (hlater : later.bytes =
      (recoverTornTail crc calls file).2 ++ encodeEntriesInto crc clock [] entries) :
    recoverTornTail crc {} later = (.ok later.bytes.length, later.bytes) := by
  obtain ⟨e, herror⟩ | ⟨validEnd, -, hbytes, -, hrecords, -⟩ :=
    recover_torn_tail_cases crc calls file
  · rw [herror] at hrepaired
    cases hrepaired
  · have hdone : Records crc later.bytes := by
      rw [hlater, hbytes]
      exact hrecords.append crc (records_encode_entries crc clock hvalid)
    have hbudget : WithinBudget later tornTailProbeWindowBytes later.bytes.length :=
      (probe_verdict_past_end crc (Nat.lt_add_of_pos_right (by decide))).2
    -- the file ends with a record of which no byte is there
    have hdecode := decode_encode_into crc (show validate (.delete []) = .ok () from rfl) 0 []
    exact (recover_torn_tail_exact crc hdone hdecode (by decide) (by simp : _ = _ ++ take 0 _)
      fun o => by simpa using decode_record_torn crc hdecode (n := 0) (by decide)).1 hbudget

end Checksum

/-- A put of one byte under a constant checksum, as a record. -/
def samplePut (value : UInt8) : Bytes := encodeInto (fun _ => 7) [] 0 (.put [97] [value] 0)

/-- Three bytes hold no record. -/
theorem decode_samplePut_take (value : UInt8) (o : Nat) :
    decodeRecord (fun _ => 7) (((samplePut value).take 3).drop o) = none := by
  cases hdecode : decodeRecord (fun _ => 7) (((samplePut value).take 3).drop o) with
  | none => rfl
  | some found =>
    have hfit := decode_record_len _ hdecode
    simp only [length_drop, length_take, headerSize] at hfit
    omega

/-- A put, then three bytes of another. -/
def tornPut : File :=
  ⟨encodeEntriesInto (fun _ => 7) (fun _ => 0) [] [.put [97] [1] 0] ++ (samplePut 2).take 3,
    by decide⟩

theorem tornPut_budget : WithinBudget tornPut tornTailProbeWindowBytes 28 :=
  (probe_verdict_past_end (fun _ => 7) (by decide)).2

/-- The three bytes are cut. -/
theorem recover_torn_tail_keeps_put : ∃ file : File, file.bytes.length = 31 ∧
      recoverTornTail (fun _ => 7) {} file = (.ok 28, file.bytes.take 28) := by
  have hcut := (recover_torn_tail_keeps_records (fun _ => 7)).2 (fun _ => 0) [.put [97] [1] 0]
    (.put [97] [2] 0) 0 3 tornPut (by decide) (by decide) (by decide) rfl (decode_samplePut_take 2)
  refine ⟨tornPut, by decide, ?_⟩
  rw [hcut.1 tornPut_budget]
  decide

theorem recover_tornPut :
    recoverTornTail (fun _ => 7) {} tornPut =
      (.ok 28, encodeEntriesInto (fun _ => 7) (fun _ => 0) [] [.put [97] [1] 0]) :=
  (recover_torn_tail_exact (fun _ => 7)
    (records_encode_entries (fun _ => 7) (fun _ => 0)
      (show validateBatchWrites [.put [97] [1] 0] = .ok () from rfl))
    (decode_encode_into (fun _ => 7) (show validate (.put [97] [2] 0) = .ok () from rfl) 0 [])
    (n := 3) (by decide) rfl (decode_samplePut_take 2)).1 tornPut_budget

/-- A put on the file whose three torn bytes were cut. -/
theorem repaired_log_keeps_put : ∃ later : File, later.bytes.length = 56 ∧
      (recoverTornTail (fun _ => 7) {} tornPut).2.length < tornPut.bytes.length ∧
      later.bytes = (recoverTornTail (fun _ => 7) {} tornPut).2 ++ samplePut 3 ∧
      recoverTornTail (fun _ => 7) {} later = (.ok later.bytes.length, later.bytes) := by
  refine ⟨⟨encodeEntriesInto (fun _ => 7) (fun _ => 0) [] [.put [97] [1] 0] ++ samplePut 3,
    by decide⟩, by decide, ?_, ?_, ?_⟩
  · rw [recover_tornPut]
    decide
  · rw [recover_tornPut]
  · refine repaired_log_keeps_appends (fun _ => 7) {} tornPut _ (fun _ => 0) [.put [97] [3] 0] ?_
      rfl ?_
    · rw [recover_tornPut]
      rfl
    · rw [recover_tornPut]
      rfl

/-! ## A torn record that exceeds the budget -/

section Budget

/-- A checksum that no byte string below contains but at its front. -/
def sevens : Bytes → UInt32 := fun _ => 0x07070707

theorem sevens_toNat (bs : Bytes) : (sevens bs).toNat = 117901063 := by
  rfl

/-- A record under this checksum has the byte 7 in its fourth place. -/
theorem sevens_at_front {rest : Bytes} {found : Record × Nat}
    (h : decodeRecord sevens rest = some found) : (7 : UInt8) ∈ rest.drop 3 := by
  obtain ⟨hheader, hlen⟩ := decode_record_len sevens h
  obtain ⟨_, -, -, -, hcrc, -⟩ := (decode_record_iff sevens).mp h
  match rest, hlen, hcrc with
  | a :: b :: c :: d :: rest, _, hcrc =>
    have ha := a.toNat_lt
    have hb := b.toNat_lt
    have hc := c.toNat_lt
    have hd : d.toNat = 7 := by
      simp only [sevens_toNat, frontHeader, Header.parse, slice, headerSize, drop_zero,
        take_succ_cons, take_zero, leNat] at hcrc
      omega
    have hseven : d = 7 := UInt8.toNat_inj.mp hd
    simp [hseven]
  | [], hlen, _ | [_], hlen, _ | [_, _], hlen, _ | [_, _, _], hlen, _ =>
    simp [headerSize] at hheader hlen
    omega

/-- A header of ones announces a body of 16 MiB and some. -/
theorem ones_header {file : File} {start n : Nat}
    (hones : file.bytes.drop start = replicate n 1) (hn : 26 + (257 + 16843009) ≤ n) :
    candidateWork file start = 22 + (257 + 16843009) := by
  have hheader : frontHeader (file.bytes.drop start) = Header.parse (replicate 26 1) := by
    rw [frontHeader, hones, slice, drop_zero, take_replicate, Nat.min_eq_left (by
      simp only [headerSize]
      omega)]
    rfl
  have hlen : file.bytes.length - start = n := by
    rw [← length_drop, hones, length_replicate]
  have hbody : candidateBody file start (frontHeader (file.bytes.drop start)) =
      some (257 + 16843009) := by
    refine candidate_body_iff.mpr ⟨16843009, ?_, ?_, ?_⟩
    · rw [hheader]
      rfl
    · rw [hheader]
      rfl
    · simp only [headerSize]
      omega
  simp only [candidateWork, hbody]
  rfl

/-- A record of ones without its last byte. -/
theorem torn_ones (size : Nat) :
    (encodeInto sevens [] 0 (.put [] (replicate (size + 1) 1) 0)).take (headerSize + size) =
      leBytes 4 117901063 ++ (headerTail 0 0 0 (size + 1) ++ replicate size 1) := by
  have hencode : encodeInto sevens [] 0 (.put [] (replicate (size + 1) 1) 0) =
      (leBytes 4 117901063 ++ headerTail 0 0 0 (size + 1)) ++ replicate (size + 1) 1 := by
    simp [encodeInto, encodeRecordInto, sealInto, sevens_toNat]
  have hheader : headerSize = (leBytes 4 117901063 ++ headerTail 0 0 0 (size + 1)).length := by
    rfl
  rw [hencode, hheader, take_length_add_append, take_replicate,
    Nat.min_eq_left (Nat.le_succ size), append_assoc]

/-- A torn record of ones holds no record: its only sevens are its own checksum. -/
theorem torn_ones_none {size : Nat} (hmax : size < maxValueSize)
    (hseven : (7 : UInt8) ∉ headerTail 0 0 0 (size + 1)) (o : Nat) :
    decodeRecord sevens (((encodeInto sevens [] 0
      (.put [] (replicate (size + 1) 1) 0)).take (headerSize + size)).drop o) = none := by
  cases o with
  | zero =>
    have hvalid : validateKvSizes [] (replicate (size + 1) 1) = .ok () := by
      rw [validateKvSizes, length_replicate, if_neg (by simp), if_neg (by omega)]
    have hentry : validate (.put [] (replicate (size + 1) 1) 0) = .ok () := hvalid
    have hdecode := decode_encode_into sevens hentry 0 []
    rw [append_nil] at hdecode
    refine decode_record_torn sevens hdecode ?_
    simp only [len, recordLen, length_nil, length_replicate]
    omega
  | succ o =>
    cases hdecode : decodeRecord sevens _ with
    | none => rfl
    | some found =>
      have hmem := sevens_at_front hdecode
      rw [torn_ones, drop_drop, show o + 1 + 3 = (leBytes 4 117901063).length + o by
        rw [length_leBytes]; omega, drop_length_add_append] at hmem
      rcases mem_append.mp (mem_of_mem_drop hmem) with htail | hones
      · exact absurd htail hseven
      · exact absurd (eq_of_mem_replicate hones) (by decide)

/-- Two candidates of ones in the first window exceed its budget. -/
theorem torn_ones_budget {file : File} {size : Nat} (hsize : 16843400 ≤ size) (hfile : file.bytes =
      leBytes 4 117901063 ++ (headerTail 0 0 0 (size + 1) ++ replicate size 1)) :
    ¬ WithinBudget file tornTailProbeWindowBytes 0 := by
  have hones : ∀ i, file.bytes.drop (26 + i) = replicate (size - i) 1 := by
    intro i
    rw [hfile, ← append_assoc, show 26 + i =
      (leBytes 4 117901063 ++ headerTail 0 0 0 (size + 1)).length + i by
        rw [length_append, length_leBytes, length_headerTail],
      drop_length_add_append, drop_replicate]
  obtain ⟨m, hm⟩ : ∃ m, tornTailProbeWindowBytes = 26 + (2 + m) := ⟨1048548, rfl⟩
  intro hbudget
  have hfirst := hbudget 0
  rw [hm, Nat.zero_mul, Nat.add_zero, window_work_add, window_work_add, Nat.zero_add] at hfirst
  have htwo : windowWork file 26 2 = 2 * (22 + (257 + 16843009)) := by
    simp [windowWork, ones_header (hones 0) (by omega), ones_header (hones 1) (by omega)]
  simp only [maxTornTailCrcBytesPerWindow] at hfirst
  omega

/-- A torn record of 17 million ones holds no record, and the repair gives up on it. -/
theorem torn_record_exceeds_budget : ∃ (entry : BatchWrite) (n : Nat) (file : File),
      entry.validate = .ok () ∧ n < entry.len ∧
      file.bytes = (entry.encodeInto sevens [] 0).take n ∧
      (∀ o, decodeRecord sevens (file.bytes.drop o) = none) ∧
      recoverTornTail sevens {} file =
        (.error (.ambiguousTail 0 file.bytes.length "probe budget exceeded"), file.bytes) := by
  obtain ⟨size, hlow, hhigh, hseven⟩ : ∃ size, 16843400 ≤ size ∧ size < maxValueSize ∧
      (7 : UInt8) ∉ headerTail 0 0 0 (size + 1) := ⟨16999999, by decide, by decide, by decide⟩
  have hvalid : validateKvSizes [] (replicate (size + 1) (1 : UInt8)) = .ok () := by
    rw [validateKvSizes, length_replicate, if_neg (by simp), if_neg (by omega)]
  have hentry : validate (.put [] (replicate (size + 1) 1) 0) = .ok () := hvalid
  have hn : headerSize + size < len (.put [] (replicate (size + 1) 1) 0) := by
    simp only [len, recordLen, length_nil, length_replicate]
    omega
  have hbytes := torn_ones size
  obtain ⟨file, hfile⟩ : ∃ file : File, file.bytes = (encodeInto sevens [] 0
      (.put [] (replicate (size + 1) 1) 0)).take (headerSize + size) := by
    refine ⟨⟨_, ?_⟩, rfl⟩
    rw [hbytes]
    simp only [length_append, length_leBytes, length_headerTail, length_replicate,
      maxOffset, maxValueSize] at hhigh ⊢
    omega
  have hdecode := decode_encode_into sevens hentry 0 []
  rw [append_nil] at hdecode
  have hgiveUp := (recover_torn_tail_exact sevens .nil hdecode hn (by rw [hfile, nil_append])
    (torn_ones_none hhigh hseven)).2 (torn_ones_budget hlow (hfile.trans hbytes))
  refine ⟨_, _, file, hentry, hn, hfile, fun o => ?_, hgiveUp⟩
  rw [hfile]
  exact torn_ones_none hhigh hseven o

end Budget

end FerricStore.Log
