import FerricStore.Prob.Recovery

/-!
# Mutations are applied exactly once

`submit` is the whole path of a mutation: the token it goes by, recovery, the decision on the token,
and the commit, which may be killed after any step behind the publication of its receipt. A `Ledger`
is what the sidecar stands for: the data with every issued mutation applied once, and the result of
the last one. `Represents` relates the files to the ledger at every kill point: the data is there, or
the receipt holds what is missing and the footer still an older token. Every step of a run keeps it,
and from it a recovery restores the ledger's data and a replay gets the stored result.
-/

namespace FerricStore.Prob

open List

/-- A mutation: its token, and the images and the result it plans from the data it finds. -/
structure Mutation where
  token : MutationToken
  plan : Bytes → Except String (List AfterImage × Bytes)

variable (layout : Layout)

/-- The images of a mutation lie below the token in the footer. -/
def Mutation.Below (mutation : Mutation) : Prop :=
  ∀ data images result, mutation.plan data = .ok (images, result) → Within layout.tokenOffset images

/-- What a submitted mutation comes to. -/
inductive Answer
  | applied (result : Bytes)
  | replayed (result : Bytes)
  | stale
  | killed
  deriving DecidableEq

variable (compacts : Bool)

/-- Runs a recovery to its end. -/
def recovered (files : Files) : Files × Except String Unit :=
  match recover layout compacts files with
  | .error error => (files, .error error)
  | .ok steps => (Kill.runSteps Step.exec steps files, .ok ())

variable (token : MutationToken)

/-- The token a mutation commits under. -/
def effectiveToken (files : Files) : Files × Except String MutationToken :=
  if token.index ≠ 0 then (files, .ok token)
  else
    match recovered layout compacts files with
    | (files, .error error) => (files, .error error)
    | (files, .ok _) =>
      (files, do
        let current ← readToken files.data layout.tokenOffset
        nextToken current token)

/-- Recovery, and the decision on a token. -/
def begin (files : Files) : Files × Except String MutationDecision :=
  match recovered layout compacts files with
  | (files, .error error) => (files, .error error)
  | (files, .ok _) => (files, decision layout files token)

/-- Plans a mutation on the data and commits it. A kill leaves the published receipt and the first
steps behind it. -/
def applyMutation (kill : Option Nat) (mutation : Mutation)
    (token : MutationToken) (files : Files) : Files × Except String Answer :=
  match mutation.plan files.data with
  | .error error => (files, .error error)
  | .ok (images, result) =>
    match commit layout compacts token images result, kill with
    | .error error, _ => (files, .error error)
    | .ok steps, none => (Kill.runSteps Step.exec steps files, .ok (.applied result))
    | .ok steps, some count =>
      (Kill.runSteps Step.exec (steps.take (count + 1)) files, .ok .killed)

/-- The path of a mutation. -/
def submit (kill : Option Nat) (mutation : Mutation)
    (files : Files) : Files × Except String Answer :=
  match effectiveToken layout compacts mutation.token files with
  | (files, .error error) => (files, .error error)
  | (files, .ok token) =>
    match begin layout compacts token files with
    | (files, .error error) => (files, .error error)
    | (files, .ok (.replay result)) => (files, .ok (.replayed result))
    | (files, .ok .stale) => (files, .ok .stale)
    | (files, .ok .apply) => applyMutation layout compacts kill mutation token files

/-! ## The ledger -/

/-- The data with every issued mutation applied once, and the token and result of the last one. -/
structure Ledger where
  data : Bytes
  last : Option (MutationToken × Bytes)

/-- Applies a mutation once. A mutation that plans nothing or does not fit a receipt is refused. -/
def Ledger.apply (ledger : Ledger) (issued : MutationToken × Mutation) : Ledger :=
  match issued.2.plan ledger.data with
  | .error _ => ledger
  | .ok (images, result) =>
    match commit layout true issued.1 images result with
    | .error _ => ledger
    | .ok _ =>
      ⟨writeImages (images ++ [tokenImage layout issued.1]) ledger.data, some (issued.1, result)⟩

/-- Applies each of the issued mutations once, in their order. -/
def exactlyOnce (data : Bytes) (issued : List (MutationToken × Mutation)) : Ledger :=
  issued.foldl (Ledger.apply layout) ⟨data, none⟩

/-- The token under which a mutation is new to a ledger. -/
def IssuedAs (ledger : Ledger) (mutation : Mutation) (token : MutationToken) : Prop :=
  ∃ current, readToken ledger.data layout.tokenOffset = .ok current ∧
    if mutation.token.index ≠ 0 then token = mutation.token ∧ current < token
    else nextToken current mutation.token = .ok token

/-- The files that a run can lead to, with the mutations it has issued: new mutations, repeated ones
and recoveries, each killed anywhere. -/
inductive Reachable (layout : Layout) (data : Bytes) :
    Files → List (MutationToken × Mutation) → Prop
  | start : Reachable layout data ⟨data, none, none⟩ []
  | issue {files issued} (compacts : Bool) (kill : Option Nat) (mutation : Mutation)
      (token : MutationToken) : Reachable layout data files issued → mutation.Below layout →
      IssuedAs layout (exactlyOnce layout data issued) mutation token →
      Reachable layout data (submit layout compacts kill mutation files).1
        (issued ++ [(token, mutation)])
  | again {files issued} (compacts : Bool) (kill : Option Nat) (mutation : Mutation) :
      Reachable layout data files issued →
      (∀ token, ¬IssuedAs layout (exactlyOnce layout data issued) mutation token) →
      Reachable layout data (submit layout compacts kill mutation files).1 issued
  | recover {files issued steps} (compacts : Bool) (count : Nat) :
      Reachable layout data files issued → recover layout compacts files = .ok steps →
      Reachable layout data (Kill.runSteps Step.exec (steps.take count) files) issued

/-! ## Files and ledger -/

/-- The data lacks images of a transaction that its receipt holds, and the footer shows it. -/
structure InFlight (transaction : Transaction) (data goal : Bytes) : Prop where
  images : ∃ others, transaction.images = others ++ [tokenImage layout transaction.token] ∧
    Within layout.tokenOffset others
  older : ∃ current, readToken data layout.tokenOffset = .ok current ∧ current < transaction.token
  length : data.length = layout.fileSize
  goal : writeImages transaction.images data = goal

/-- A receipt that belongs to a ledger, beside the data. -/
structure Receipted (receipt data : Bytes) (ledger : Ledger)
    (transaction : Transaction) : Prop where
  decode : decodeTransaction receipt = .ok transaction
  offset : transaction.tokenOffset = layout.tokenOffset
  size : transaction.expectedFileSize = layout.fileSize
  token : readToken ledger.data layout.tokenOffset = .ok transaction.token
  last : ledger.last = some (transaction.token, transaction.result)
  data : data = ledger.data ∨ InFlight layout transaction data ledger.data

/-- The files stand for a ledger. -/
structure Represents (ledger : Ledger) (files : Files) : Prop where
  length : ledger.data.length = layout.fileSize
  pending : files.pending = none
  receipt : match files.receipt with
    | none => files.data = ledger.data ∧ ledger.last = none
    | some receipt => ∃ transaction, Receipted layout receipt files.data ledger transaction

variable {layout} {ledger : Ledger} {transaction : Transaction} {files : Files}

theorem stop_tokenImage (layout : Layout) (token : MutationToken) :
    (tokenImage layout token).stop = layout.fileSize := by
  rw [AfterImage.stop, tokenImage, MutationToken.length_encode, layout.footer]

/-- Images below the footer and the image of the token lie in the file. -/
theorem within_file {others : List AfterImage} (h : Within layout.tokenOffset others)
    (token : MutationToken) : Within layout.fileSize (others ++ [tokenImage layout token]) := by
  have hfooter := layout.footer
  refine forall_mem_append.mpr ⟨fun image hmem => ?_,
    forall_mem_singleton.mpr (stop_tokenImage layout token).le⟩
  have := h image hmem
  omega

/-- Wherever the images are cut, the data is complete or still shows that it is not. -/
theorem InFlight.take {data goal : Bytes} (h : InFlight layout transaction data goal) (count : Nat) :
    writeImages (transaction.images.take count) data = goal ∨
      InFlight layout transaction (writeImages (transaction.images.take count) data) goal := by
  obtain ⟨others, himages, hothers⟩ := h.images
  by_cases hcount : count ≤ others.length
  · right
    have htake : transaction.images.take count = others.take count := by
      rw [himages, take_append_of_le_length hcount]
    have hbelow : Within layout.tokenOffset (others.take count) :=
      fun image hmem => hothers image (mem_of_mem_take hmem)
    have hin : Within data.length transaction.images := by
      rw [h.length, himages]
      exact within_file hothers _
    have hroom : layout.tokenOffset + tokenSize ≤ data.length := by rw [h.length, layout.footer]
    rw [htake]
    have hlength : (writeImages (others.take count) data).length = data.length :=
      length_writeImages fun image hmem => (hbelow image hmem).trans (by omega)
    refine ⟨h.images, ?_, ?_, ?_⟩
    · rw [readToken, hlength, slice_writeImages hbelow hroom]
      exact h.older
    · rw [hlength, h.length]
    · rw [writeImages_redo hin, h.goal]
      intro image hmem
      rw [himages]
      exact mem_append_left _ (mem_of_mem_take hmem)
  · left
    rw [take_of_length_le, h.goal]
    rw [himages, length_append, length_singleton]
    omega

/-- The data of a recovered ledger shows the receipt's token. -/
theorem Receipted.current {receipt data : Bytes}
    (h : Receipted layout receipt data ledger transaction) :
    ∃ current, readToken data layout.tokenOffset = .ok current ∧
      (current < transaction.token → InFlight layout transaction data ledger.data) ∧
      (¬current < transaction.token → data = ledger.data) := by
  rcases h.data with heq | hflight
  · refine ⟨transaction.token, heq ▸ h.token, fun hlt => absurd hlt (lt_irrefl _), fun _ => heq⟩
  · obtain ⟨current, hcurrent, hlt⟩ := hflight.older
    exact ⟨current, hcurrent, fun _ => hflight, fun hnot => absurd hlt hnot⟩

section

variable {receipt : Bytes} (hlength : ledger.data.length = layout.fileSize)
  (hpending : files.pending = none) (hfile : files.receipt = some receipt)
  (h : Receipted layout receipt files.data ledger transaction)
include hlength hpending hfile h

/-- The images of a transaction in flight may be cut anywhere. -/
theorem always_apply (hflight : InFlight layout transaction files.data ledger.data) :
    Kill.Always Step.exec (Represents layout ledger) (applyTransaction transaction) files ∧
      Kill.runSteps Step.exec (applyTransaction transaction) files =
        { files with data := ledger.data } := by
  have hwhole : Kill.runSteps Step.exec (transaction.images.map .write) files =
      { files with data := ledger.data } := by
    rw [exec_writes, hflight.goal]
  have hrepresents : ∀ data, data = ledger.data ∨ InFlight layout transaction data ledger.data →
      Represents layout ledger { files with data := data } := by
    intro data hdata
    refine ⟨hlength, hpending, ?_⟩
    rw [hfile]
    exact ⟨transaction, h.decode, h.offset, h.size, h.token, h.last, hdata⟩
  rw [applyTransaction, Kill.runSteps_append, Kill.always_append, hwhole]
  refine ⟨⟨fun count => ?_, ?_⟩, rfl⟩
  · rw [← map_take, exec_writes]
    exact hrepresents _ (hflight.take count)
  · rw [Kill.always_cons, Kill.always_nil]
    exact ⟨hrepresents _ (.inl rfl), hrepresents _ (.inl rfl)⟩

/-- Compacting the receipt of complete data may be cut anywhere. -/
theorem always_compact (hdata : files.data = ledger.data) :
    Kill.Always Step.exec (Represents layout ledger) (compactReceiptIfLarge compacts transaction)
      files := by
  have hfiles : Represents layout ledger files := by
    refine ⟨hlength, hpending, ?_⟩
    rw [hfile]
    exact ⟨transaction, h⟩
  rcases compact_cases compacts transaction with hnone | ⟨hvalid, hone⟩
  · rw [hnone, Kill.always_nil]
    exact hfiles
  · rw [hone, Kill.always_cons, Kill.always_nil]
    exact ⟨hfiles, hlength, hpending, transaction.compacted, decodeTransaction_encode hvalid,
      h.offset, h.size, h.token, h.last, .inl hdata⟩

end

section

variable (h : Represents layout ledger files)
include h

/-- A recovery may be cut anywhere, and brings the data up to date when it is not. -/
theorem recover_spec : ∃ steps, recover layout compacts files = .ok steps ∧
      Kill.Always Step.exec (Represents layout ledger) steps files ∧
      (Kill.runSteps Step.exec steps files).data = ledger.data := by
  obtain ⟨data, receipt, pending⟩ := files
  obtain ⟨hlength, hpending, hreceipt⟩ := id h
  cases hpending
  rw [recover, validateTokenLocation_eq_ok_iff.mpr ⟨layout.footer, layout.fits⟩, ok_bind,
    readTransactionIfPresent]
  cases receipt with
  | none => exact ⟨[], rfl, Kill.always_nil.mpr h, hreceipt.1⟩
  | some receipt =>
    obtain ⟨transaction, htransaction⟩ := hreceipt
    obtain ⟨current, hcurrent, hflight, hdone⟩ := htransaction.current
    dsimp only
    rw [htransaction.decode, ok_bind, ok_bind]
    dsimp only
    rw [if_neg (by simp [htransaction.offset, htransaction.size]), hcurrent, ok_bind,
      if_neg Bool.false_ne_true]
    refine ⟨_, rfl, ?_⟩
    rw [Kill.always_append, Kill.runSteps_append, nil_append]
    by_cases hold : current < transaction.token
    · obtain ⟨halways, hrun⟩ : Kill.Always Step.exec (Represents layout ledger)
          (applyTransaction transaction) ⟨data, some receipt, none⟩ ∧ _ :=
        always_apply hlength rfl rfl htransaction (hflight hold)
      have hcomplete : Receipted layout receipt ledger.data ledger transaction :=
        { htransaction with data := .inl rfl }
      rw [if_pos hold, hrun]
      refine ⟨⟨halways, always_compact compacts hlength rfl rfl hcomplete rfl⟩, ?_⟩
      rw [exec_compact]
    · rw [if_neg hold]
      refine ⟨⟨Kill.always_nil.mpr h, ?_⟩, ?_⟩
      · exact always_compact compacts hlength rfl rfl htransaction (hdone hold)
      · rw [exec_compact]
        exact hdone hold

/-- A recovery that runs to its end. -/
theorem recovered_spec : ∃ files', recovered layout compacts files = (files', .ok ()) ∧
      Represents layout ledger files' ∧ files'.data = ledger.data := by
  obtain ⟨steps, hsteps, halways, hdata⟩ := recover_spec compacts h
  rw [recovered, hsteps]
  exact ⟨_, rfl, halways.whole, hdata⟩

/-- On recovered files a recovery puts nothing into the data file: all it may do is to compact the
receipt. -/
theorem recover_recovered (hdata : files.data = ledger.data) :
    ∃ steps, recover layout compacts files = .ok steps ∧ ∀ image, Step.write image ∉ steps := by
  obtain ⟨data, receipt, pending⟩ := files
  obtain ⟨-, hpending, hreceipt⟩ := id h
  cases hpending
  cases hdata
  rw [recover, validateTokenLocation_eq_ok_iff.mpr ⟨layout.footer, layout.fits⟩, ok_bind,
    readTransactionIfPresent]
  cases receipt with
  | none => exact ⟨[], rfl, fun _ => not_mem_nil⟩
  | some receipt =>
    obtain ⟨transaction, htransaction⟩ := hreceipt
    dsimp only
    rw [htransaction.decode, ok_bind, ok_bind]
    dsimp only
    rw [if_neg (by simp [htransaction.offset, htransaction.size]), htransaction.token, ok_bind,
      if_neg (lt_irrefl _), if_neg Bool.false_ne_true]
    refine ⟨_, rfl, fun image hmem => ?_⟩
    rw [nil_append, nil_append] at hmem
    rcases compact_cases compacts transaction with hnone | ⟨-, hone⟩
    · rw [hnone] at hmem
      exact not_mem_nil hmem
    · rw [hone] at hmem
      cases mem_singleton.mp hmem

/-- The decision on a token once the files are recovered. -/
theorem decision_spec {current : MutationToken} (hdata : files.data = ledger.data)
    (hcurrent : readToken ledger.data layout.tokenOffset = .ok current) :
    (current < token → decision layout files token = .ok .apply) ∧
    (token < current → decision layout files token = .ok .stale) ∧
    (∀ result, ledger.last = some (token, result) →
      decision layout files token = .ok (.replay result)) ∧
    (¬current < token → ∃ answer, decision layout files token = .ok answer ∧ answer ≠ .apply) := by
  obtain ⟨data, receipt, pending⟩ := files
  obtain ⟨hlength, hpending, hreceipt⟩ := h
  cases hpending
  cases hdata
  simp only [decision, hcurrent, ok_bind]
  cases receipt with
  | none =>
    refine ⟨fun hlt => if_pos hlt, fun hlt => ?_, fun result hlast => ?_, fun hnot => ?_⟩
    · rw [if_neg hlt.asymm, if_pos hlt]
    · rw [hreceipt.2] at hlast
      cases hlast
    · rw [if_neg hnot]
      by_cases hstale : token < current
      · exact ⟨_, if_pos hstale, by simp⟩
      · exact ⟨.stale, if_neg hstale, by simp⟩
  | some receipt =>
    obtain ⟨transaction, htransaction⟩ := hreceipt
    have htoken : transaction.token = current := by
      have := htransaction.token.symm.trans hcurrent
      cases this
      rfl
    simp only [readTransactionIfPresent, htransaction.decode, ok_bind]
    refine ⟨fun hlt => if_pos hlt, fun hlt => ?_, fun result hlast => ?_, fun hnot => ?_⟩
    · rw [if_neg hlt.asymm, if_pos hlt]
    · rw [htransaction.last] at hlast
      cases hlast
      rw [htoken, if_neg (lt_irrefl _), if_neg (lt_irrefl _), if_pos rfl]
    · rw [if_neg hnot]
      by_cases hstale : token < current
      · exact ⟨_, if_pos hstale, by simp⟩
      · rw [if_neg hstale, htoken, if_pos (le_antisymm (not_lt.mp hstale) (not_lt.mp hnot))]
        exact ⟨_, rfl, by simp⟩

end

/-- A commit is refused, or publishes a valid receipt and applies it. -/
theorem commit_cases (layout : Layout) (token : MutationToken) (images : List AfterImage)
    (result : Bytes) :
    (∀ compacts, ∃ error, commit layout compacts token images result = .error error) ∨
    (transactionOf layout token images result).Valid ∧ ∀ compacts,
      commit layout compacts token images result =
        .ok (.publish (transactionOf layout token images result).encode ::
          (applyTransaction (transactionOf layout token images result) ++
            compactReceiptIfLarge compacts (transactionOf layout token images result))) := by
  simp only [commit, validateTokenLocation_eq_ok_iff.mpr ⟨layout.footer, layout.fits⟩, ok_bind]
  cases validateImages images layout.fileSize with
  | error error => exact .inl fun _ => ⟨error, rfl⟩
  | ok _ =>
    cases hsize : validateTransactionEncoding (transactionOf layout token images result) with
    | error error => exact .inl fun _ => ⟨error, rfl⟩
    | ok size => exact .inr ⟨(validateTransactionEncoding_eq_ok_iff.mp hsize).1, fun _ => rfl⟩

variable {mutation : Mutation}

/-- What a mutation makes of the ledger: nothing, or its images with its token and its result. -/
theorem apply_spec {current token : MutationToken}
    (kill : Option Nat) (h : Represents layout ledger files) (hdata : files.data = ledger.data)
    (hcurrent : readToken ledger.data layout.tokenOffset = .ok current) (hnew : current < token)
    (hbelow : mutation.Below layout) :
    Represents layout (ledger.apply layout (token, mutation))
      (applyMutation layout compacts kill mutation token files).1 := by
  rw [Ledger.apply, applyMutation, hdata]
  cases hplan : mutation.plan ledger.data with
  | error _ => exact h
  | ok planned =>
    obtain ⟨images, result⟩ := planned
    dsimp only
    rcases commit_cases layout token images result with hrefused | ⟨hvalid, hcommit⟩
    · obtain ⟨_, hall⟩ := hrefused true
      obtain ⟨_, hhere⟩ := hrefused compacts
      rw [hall, hhere]
      exact h
    · have hwithin : Within layout.tokenOffset images := hbelow _ _ _ hplan
      have hlen : ledger.data.length = layout.fileSize := h.length
      have hin : Within ledger.data.length (images ++ [tokenImage layout token]) :=
        hlen.symm ▸ within_file hwithin token
      have hinImages : Within ledger.data.length images :=
        fun image hmem => hin image (mem_append_left _ hmem)
      have hwrite : writeImages (images ++ [tokenImage layout token]) ledger.data =
          (tokenImage layout token).write (writeImages images ledger.data) := by
        rw [writeImages, foldl_append]
        rfl
      -- the ledger behind the mutation and the files right after the publication
      rw [hcommit true]
      set transaction := transactionOf layout token images result
      set next := writeImages (images ++ [tokenImage layout token]) ledger.data
      have hnext : next.length = layout.fileSize := (length_writeImages hin).trans hlen
      have hflight : InFlight layout transaction files.data next :=
        ⟨⟨images, rfl, hwithin⟩, ⟨current, hdata.symm ▸ hcurrent, hnew⟩, hdata.symm ▸ hlen,
          hdata.symm ▸ rfl⟩
      have hreceipted : Receipted layout transaction.encode files.data
          ⟨next, some (token, result)⟩ transaction := by
        refine ⟨decodeTransaction_encode hvalid, rfl, rfl, ?_, rfl, .inr hflight⟩
        show readToken next _ = _
        rw [hwrite]
        exact readToken_tokenImage token ((length_writeImages hinImages).trans hlen)
      obtain ⟨halways, hrun⟩ : Kill.Always Step.exec
          (Represents layout ⟨next, some (token, result)⟩) (applyTransaction transaction)
          ⟨files.data, some transaction.encode, files.pending⟩ ∧ _ :=
        always_apply hnext h.pending rfl hreceipted hflight
      have hsteps : Kill.Always Step.exec (Represents layout ⟨next, some (token, result)⟩)
          (applyTransaction transaction ++ compactReceiptIfLarge compacts transaction)
          ⟨files.data, some transaction.encode, files.pending⟩ := by
        rw [Kill.always_append, hrun]
        exact ⟨halways, always_compact compacts hnext h.pending rfl
          { hreceipted with data := .inl rfl } rfl⟩
      rw [hcommit compacts]
      cases kill with
      | none => exact hsteps.whole
      | some count => exact hsteps count

theorem Represents.current (h : Represents layout ledger files) :
    ∃ current, readToken ledger.data layout.tokenOffset = .ok current := by
  have hroom : layout.tokenOffset + tokenSize ≤ ledger.data.length := by rw [h.length, layout.footer]
  rw [readToken, if_pos hroom, MutationToken.decode,
    if_neg (not_not.mpr (length_slice_of_le hroom))]
  exact ⟨_, rfl⟩

section

variable (compacts : Bool) (h : Represents layout ledger files)
include h

/-- The token a mutation goes by: its own, or the next one behind the ledger's. -/
theorem effectiveToken_spec {current : MutationToken} (token : MutationToken)
    (hcurrent : readToken ledger.data layout.tokenOffset = .ok current) :
    ∃ files', Represents layout ledger files' ∧ (token.index = 0 → files'.data = ledger.data) ∧
      effectiveToken layout compacts token files =
        (files', if token.index ≠ 0 then .ok token else nextToken current token) := by
  rw [effectiveToken]
  by_cases hindex : token.index = 0
  · obtain ⟨files', hrecovered, hfiles', hdata⟩ := recovered_spec compacts h
    refine ⟨files', hfiles', fun _ => hdata, ?_⟩
    rw [if_neg (not_not.mpr hindex), if_neg (not_not.mpr hindex), hrecovered]
    dsimp only
    rw [hdata, hcurrent, ok_bind]
  · exact ⟨files, h, fun hzero => absurd hzero hindex, by rw [if_pos hindex, if_pos hindex]⟩

/-- A submitted mutation, once its token is known. -/
theorem submit_eq {current token : MutationToken} (kill : Option Nat)
    (hcurrent : readToken ledger.data layout.tokenOffset = .ok current)
    (htoken : (if mutation.token.index ≠ 0 then .ok mutation.token
      else nextToken current mutation.token) = Except.ok token) :
    ∃ files', Represents layout ledger files' ∧ files'.data = ledger.data ∧
      submit layout compacts kill mutation files =
        match decision layout files' token with
        | .error error => (files', .error error)
        | .ok (.replay result) => (files', .ok (.replayed result))
        | .ok .stale => (files', .ok .stale)
        | .ok .apply => applyMutation layout compacts kill mutation token files' := by
  obtain ⟨files₁, hfiles₁, -, heffective⟩ := effectiveToken_spec compacts h mutation.token hcurrent
  obtain ⟨files', hrecovered, hfiles', hdata⟩ := recovered_spec compacts hfiles₁
  refine ⟨files', hfiles', hdata, ?_⟩
  rw [submit, heffective, htoken]
  dsimp only
  rw [begin, hrecovered]
  dsimp only
  cases decision layout files' token with
  | error _ => rfl
  | ok answer => cases answer <;> rfl

/-- A new mutation is applied to the ledger, wherever it is killed. -/
theorem submit_issue {token : MutationToken} (kill : Option Nat) (hbelow : mutation.Below layout)
    (hissued : IssuedAs layout ledger mutation token) :
    Represents layout (ledger.apply layout (token, mutation))
      (submit layout compacts kill mutation files).1 := by
  obtain ⟨current, hcurrent, hcase⟩ := hissued
  have htoken : (if mutation.token.index ≠ 0 then .ok mutation.token
      else nextToken current mutation.token) = Except.ok token ∧ current < token := by
    split_ifs at hcase ⊢
    · exact ⟨by rw [hcase.1], hcase.2⟩
    · refine ⟨hcase, ?_⟩
      rw [nextToken] at hcase
      split_ifs at hcase
      cases hcase
      exact MutationToken.lt_iff.mpr (.inl (Fin.lt_def.mpr (Nat.lt_succ_self _)))
  obtain ⟨files', hfiles', hdata, hsubmit⟩ := submit_eq compacts h kill hcurrent htoken.1
  rw [hsubmit, (decision_spec token hfiles' hdata hcurrent).1 htoken.2]
  exact apply_spec compacts kill hfiles' hdata hcurrent htoken.2 hbelow

/-- A mutation that is not new leaves the ledger, and the files up to date with it. -/
theorem submit_again (kill : Option Nat)
    (hagain : ∀ token, ¬IssuedAs layout ledger mutation token) :
    Represents layout ledger (submit layout compacts kill mutation files).1 := by
  obtain ⟨current, hcurrent⟩ := h.current
  cases htoken : (if mutation.token.index ≠ 0 then Except.ok mutation.token
      else nextToken current mutation.token) with
  | error error =>
    obtain ⟨files', hfiles', -, heffective⟩ :=
      effectiveToken_spec compacts h mutation.token hcurrent
    rw [submit, heffective, htoken]
    exact hfiles'
  | ok token =>
    obtain ⟨files', hfiles', hdata, hsubmit⟩ := submit_eq compacts h kill hcurrent htoken
    have hnot : ¬current < token := by
      intro hlt
      refine hagain token ⟨current, hcurrent, ?_⟩
      split_ifs at htoken ⊢
      · exact ⟨(Except.ok.inj htoken).symm, hlt⟩
      · exact htoken
    obtain ⟨answer, hanswer, hne⟩ := (decision_spec token hfiles' hdata hcurrent).2.2.2 hnot
    rw [hsubmit, hanswer]
    cases answer with
    | apply => exact absurd rfl hne
    | replay result => exact hfiles'
    | stale => exact hfiles'

end

/-- Every reachable state of the files stands for the ledger of the issued mutations. -/
theorem represents_of_reachable {data : Bytes} {issued : List (MutationToken × Mutation)}
    (hdata : data.length = layout.fileSize) (h : Reachable layout data files issued) :
    Represents layout (exactlyOnce layout data issued) files := by
  induction h with
  | start => exact ⟨hdata, rfl, rfl, rfl⟩
  | issue compacts kill mutation token _ hbelow hissued ih =>
    rw [exactlyOnce, foldl_append]
    exact submit_issue compacts ih kill hbelow hissued
  | again compacts kill mutation _ hagain ih => exact submit_again compacts ih kill hagain
  | recover compacts count _ hsteps ih =>
    obtain ⟨steps, hsteps', halways, -⟩ := recover_spec compacts ih
    cases hsteps.symm.trans hsteps'
    exact halways count

section

variable (compacts : Bool) (kill : Option Nat) (h : Represents layout ledger files)
include h

/-- A replay of the latest token gets the stored result. -/
theorem submit_replay (mutation : Mutation) {result : Bytes} (hindex : mutation.token.index ≠ 0)
    (hlast : ledger.last = some (mutation.token, result)) :
    ∃ files', submit layout compacts kill mutation files = (files', .ok (.replayed result)) ∧
      files'.data = ledger.data := by
  obtain ⟨current, hcurrent⟩ := h.current
  obtain ⟨files', hfiles', hdata', hsubmit⟩ := submit_eq compacts h kill hcurrent (if_pos hindex)
  rw [hsubmit, (decision_spec _ hfiles' hdata' hcurrent).2.2.1 result hlast]
  exact ⟨files', rfl, hdata'⟩

/-- On recovered files all that such a replay does is a recovery that puts nothing into the data
file. -/
theorem submit_replay_recovered (mutation : Mutation) {result : Bytes}
    (hdata : files.data = ledger.data) (hindex : mutation.token.index ≠ 0)
    (hlast : ledger.last = some (mutation.token, result)) :
    ∃ steps, recover layout compacts files = .ok steps ∧ (∀ image, Step.write image ∉ steps) ∧
      submit layout compacts kill mutation files =
        (Kill.runSteps Step.exec steps files, .ok (.replayed result)) := by
  obtain ⟨current, hcurrent⟩ := h.current
  obtain ⟨steps, hsteps, hnone⟩ := recover_recovered compacts h hdata
  obtain ⟨_, hsteps', halways, hdata'⟩ := recover_spec compacts h
  cases hsteps.symm.trans hsteps'
  have hreplay := (decision_spec mutation.token halways.whole hdata' hcurrent).2.2.1 result hlast
  refine ⟨steps, hsteps, hnone, ?_⟩
  -- the token is the mutation's own, so the one recovery is that of `begin`
  rw [submit, effectiveToken, if_pos hindex]
  simp only [begin, recovered, hsteps, hreplay]

end

/-- Mutations whose images lie below the footer are applied exactly once: after any run of new
mutations, replays and recoveries, each killed anywhere, a recovery leaves the data with every
issued mutation applied once in the order of their tokens, a replay of the latest token gets the
stored result and one of an older token nothing, and neither changes that data. On recovered files
the replay of the latest token has no write step at all. -/
theorem mutations_exactly_once {data : Bytes} {issued : List (MutationToken × Mutation)}
    (compacts : Bool) (kill : Option Nat) (hdata : data.length = layout.fileSize)
    (h : Reachable layout data files issued) :
    (∃ steps, recover layout compacts files = .ok steps ∧
      (Kill.runSteps Step.exec steps files).data = (exactlyOnce layout data issued).data) ∧
    (∀ mutation result, mutation.token.index ≠ 0 →
      (exactlyOnce layout data issued).last = some (mutation.token, result) →
      (∃ files', submit layout compacts kill mutation files = (files', .ok (.replayed result)) ∧
        files'.data = (exactlyOnce layout data issued).data) ∧
      (files.data = (exactlyOnce layout data issued).data →
        ∃ steps, recover layout compacts files = .ok steps ∧
          (∀ image, Step.write image ∉ steps) ∧
          submit layout compacts kill mutation files =
            (Kill.runSteps Step.exec steps files, .ok (.replayed result)))) ∧
    (∀ mutation current, mutation.token.index ≠ 0 →
      readToken (exactlyOnce layout data issued).data layout.tokenOffset = .ok current →
      mutation.token < current →
      ∃ files', submit layout compacts kill mutation files = (files', .ok .stale) ∧
        files'.data = (exactlyOnce layout data issued).data) := by
  have hfiles := represents_of_reachable hdata h
  obtain ⟨current, hcurrent⟩ := hfiles.current
  obtain ⟨steps, hsteps, -, hrecovered⟩ := recover_spec compacts hfiles
  refine ⟨⟨steps, hsteps, hrecovered⟩, fun mutation result hindex hlast => ⟨?_, fun hdone => ?_⟩,
    fun mutation newest hindex hnewest hold => ?_⟩
  · exact submit_replay compacts kill hfiles mutation hindex hlast
  · exact submit_replay_recovered compacts kill hfiles mutation hdone hindex hlast
  · cases hcurrent.symm.trans hnewest
    obtain ⟨files', hfiles', hdata', hsubmit⟩ :=
      submit_eq compacts hfiles kill hcurrent (if_pos hindex)
    rw [hsubmit, (decision_spec _ hfiles' hdata' hcurrent).2.1 hold]
    exact ⟨files', rfl, hdata'⟩

/-- A mutation that puts three bytes at offset 8. -/
def sampleMutation : Mutation := ⟨⟨7, 1⟩, fun _ => .ok ([⟨8, [9, 8, 7]⟩], [3, 4, 5])⟩

/-- The files with the sample mutation killed, its image written and its token not. -/
def killedSample : Files :=
  (submit sampleLayout true (some 1) sampleMutation ⟨replicate 64 0, none, none⟩).1

theorem killedSample_reachable :
    Reachable sampleLayout (replicate 64 0) killedSample [(⟨7, 1⟩, sampleMutation)] := by
  refine Reachable.issue true (some 1) sampleMutation ⟨7, 1⟩ .start ?_ ?_
  · intro data images result hplan
    cases hplan
    intro image hmem
    rw [mem_singleton.mp hmem]
    decide
  · exact ⟨⟨0, 0⟩, by decide +kernel, rfl, by decide⟩

/-- The sample mutation submitted a second time, which is no new mutation. -/
theorem replayedSample_reachable : Reachable sampleLayout (replicate 64 0)
    (submit sampleLayout true none sampleMutation killedSample).1 [(⟨7, 1⟩, sampleMutation)] := by
  refine .again true none sampleMutation killedSample_reachable ?_
  rintro token ⟨current, hcurrent, hissued⟩
  have hstored : readToken (exactlyOnce sampleLayout (replicate 64 0)
      [(⟨7, 1⟩, sampleMutation)]).data sampleLayout.tokenOffset = .ok ⟨7, 1⟩ := by decide +kernel
  cases hstored.symm.trans hcurrent
  obtain ⟨rfl, hlt⟩ := hissued
  exact absurd hlt (by decide)

/-- A replay of the killed sample mutation completes it and gets its result. A second one finds
nothing to write. -/
theorem mutations_exactly_once_sample :
    (∃ files', submit sampleLayout true none sampleMutation killedSample =
        (files', .ok (.replayed [3, 4, 5])) ∧
      files'.data =
        (exactlyOnce sampleLayout (replicate 64 0) [(⟨7, 1⟩, sampleMutation)]).data) ∧
    ∃ steps, recover sampleLayout true
        (submit sampleLayout true none sampleMutation killedSample).1 = .ok steps ∧
      (∀ image, Step.write image ∉ steps) ∧
      submit sampleLayout true none sampleMutation
          (submit sampleLayout true none sampleMutation killedSample).1 =
        (Kill.runSteps Step.exec steps
          (submit sampleLayout true none sampleMutation killedSample).1,
          .ok (.replayed [3, 4, 5])) := by
  have hlast : (exactlyOnce sampleLayout (replicate 64 0) [(⟨7, 1⟩, sampleMutation)]).last =
      some (sampleMutation.token, [3, 4, 5]) := by decide +kernel
  obtain ⟨-, hfirst, -⟩ := mutations_exactly_once true none (by decide) killedSample_reachable
  obtain ⟨-, hsecond, -⟩ := mutations_exactly_once true none (by decide) replayedSample_reachable
  obtain ⟨files', hsubmit, hdata⟩ := (hfirst sampleMutation _ (by decide) hlast).1
  refine ⟨⟨files', hsubmit, hdata⟩, (hsecond sampleMutation _ (by decide) hlast).2 ?_⟩
  rw [hsubmit]
  exact hdata

/-- A mutation with an image over the footer. -/
def footerMutation : Mutation :=
  ⟨⟨7, 1⟩, fun _ => .ok ([⟨48, replicate 16 255⟩, ⟨8, [9, 8, 7]⟩], [3, 4, 5])⟩

/-- An image over the footer is accepted. Killed right behind it, the mutation is taken for an applied
one, and recovery leaves out its other image. -/
theorem footer_image_skips_recovery :
    IssuedAs sampleLayout ⟨replicate 64 0, none⟩ footerMutation ⟨7, 1⟩ ∧
    ∃ steps, recover sampleLayout true (submit sampleLayout true (some 1) footerMutation
        ⟨replicate 64 0, none, none⟩).1 = .ok steps ∧
      slice (Kill.runSteps Step.exec steps (submit sampleLayout true (some 1) footerMutation
        ⟨replicate 64 0, none, none⟩).1).data 8 3 = [0, 0, 0] ∧
      slice (exactlyOnce sampleLayout (replicate 64 0)
        [(⟨7, 1⟩, footerMutation)]).data 8 3 = [9, 8, 7] := by
  have hvalid : (transactionOf sampleLayout ⟨7, 1⟩
      [⟨48, replicate 16 255⟩, ⟨8, [9, 8, 7]⟩] [3, 4, 5]).Valid := by
    have hsize : validateTransactionEncoding (transactionOf sampleLayout ⟨7, 1⟩
        [⟨48, replicate 16 255⟩, ⟨8, [9, 8, 7]⟩] [3, 4, 5]) = .ok 146 := by decide +kernel
    exact (validateTransactionEncoding_eq_ok_iff.mp hsize).1
  have hfiles : (submit sampleLayout true (some 1) footerMutation
      ⟨replicate 64 0, none, none⟩).1 =
      ⟨crashed [⟨48, replicate 16 255⟩] (replicate 64 0), some (transactionOf sampleLayout
        ⟨7, 1⟩ [⟨48, replicate 16 255⟩, ⟨8, [9, 8, 7]⟩] [3, 4, 5]).encode, none⟩ := rfl
  have htoken : readToken (crashed [⟨48, replicate 16 255⟩] (replicate 64 0)) 48 =
      .ok ⟨256 ^ 8 - 1, 256 ^ 8 - 1⟩ := by decide +kernel
  obtain ⟨steps, hsteps, hdata⟩ := recover_data none true hvalid rfl rfl htoken
  refine ⟨⟨⟨0, 0⟩, by decide +kernel, rfl, by decide⟩, steps, ?_, ?_, by decide +kernel⟩
  · exact hsteps
  · rw [hfiles, hdata, if_neg (by decide)]
    decide +kernel

end FerricStore.Prob
