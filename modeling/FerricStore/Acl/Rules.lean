import FerricStore.Lib.Bytes
import FerricStore.Lib.Result

/-!
# ACL rules and the commands a user may run

`ACL SETUSER` folds a list of rules into a user record (`FerricstoreServer.Acl.Rules`). The
commands of a record are kept as one set: the granted commands, or, once all commands are granted,
the denied ones. A command is looked up in that set together with its container, the part of its
name before the first dot. So a record remembers, for each name alone, what the last rule about it
said, and `last_covering_rule_decides` says exactly when that amounts to the last rule that covers
the command, under its own name or its container's.
-/

namespace FerricStore.Acl

/-- The bytes of a literal of the source. -/
def text (literal : String) : Bytes :=
  literal.toList.map fun char => UInt8.ofNat char.toNat

/-- The rest of a rule that starts with `literal`. -/
def dropText (literal : String) (rule : Bytes) : Option Bytes :=
  (text literal).isPrefixOf? rule

/-- What the rules read from their surroundings: the command tables, which extensions may enlarge,
the text functions of the runtime, and what is done to the other fields of a record: by `reset`, by
a rule that is not about commands, and by the checks before and after a list of rules. -/
structure Catalog (O : Type) where
  aclSupportedCommands : Finset Bytes
  categoryCommands : Bytes → Option (Finset Bytes)
  upcase : Bytes → Bytes
  downcase : Bytes → Bytes
  resetOthers : O → O
  otherRule : Bytes → O → Except Bytes O
  validateRuleLimits : List Bytes → Except Bytes Unit
  finishOthers : O → Except Bytes O

/-- All commands (`:all`), or those listed. -/
inductive Commands where
  | all
  | only (listed : Finset Bytes)
deriving DecidableEq

/-- A user record: its command fields, and the others (state, password, keys, channels, expiry). -/
structure User (O : Type) where
  commands : Commands
  deniedCommands : Finset Bytes
  others : O
deriving DecidableEq

/-- The rules, as their clause heads tell them apart. -/
inductive Rule where
  | reset
  | allCommands
  | noCommands
  | category (grant : Bool) (category : Bytes)
  | command (grant : Bool) (command : Bytes)
  | other

/-- The clause of `apply_rules_deferred` or `parse_rule` that a rule belongs to. -/
def readRule (rule : Bytes) : Rule :=
  if rule = text "reset" then .reset
  else if rule = text "allcommands" ∨ rule = text "+@all" then .allCommands
  else if rule = text "-@all" ∨ rule = text "nocommands" then .noCommands
  else if let some category := dropText "+@" rule then .category true category
  else if let some category := dropText "-@" rule then .category false category
  else if let some command := dropText "+" rule then .command true command
  else if let some command := dropText "-" rule then .command false command
  else .other

section model

variable {O : Type} (cat : Catalog O)

/-- `normalize_acl_command_name`. -/
def Catalog.normalizeAclCommandName (command : Bytes) : Bytes :=
  (cat.upcase command).map fun byte => if byte = 124 then 46 else byte

variable (cmd : Bytes)

/-- `command_parent`. -/
def commandParent : Option Bytes :=
  if 46 ∈ cmd then some (cmd.takeWhile (· ≠ 46)) else none

/-- The container of a command: its parent, where that is a supported command. -/
def Catalog.container : Option Bytes :=
  (commandParent cmd).filter (· ∈ cat.aclSupportedCommands)

/-- The names under which a command is looked up: its own and its container's. -/
def Catalog.names : Finset Bytes :=
  insert cmd (cat.container cmd).toFinset

/-- `command_denied?` and `command_allowed?`, which are one lookup. -/
def Catalog.commandListed (commands : Finset Bytes) (cmd : Bytes) : Bool :=
  ∃ name ∈ cat.names cmd, name ∈ commands

/-- `check_active_user_command`. -/
def checkActiveUserCommand (u : User O) (cmd : Bytes) : Except Bytes Unit :=
  let permissionError := text "NOPERM this user has no permissions to run the '" ++
    cat.downcase cmd ++ text "' command"
  match u.commands with
  | .all => if cat.commandListed u.deniedCommands cmd then .error permissionError else .ok ()
  | .only commands =>
    if cat.commandListed u.deniedCommands cmd ∨ ¬ cat.commandListed commands cmd then
      .error permissionError
    else .ok ()

/-- May the user, while active, run the command? -/
def mayRun (u : User O) (cmd : Bytes) : Bool :=
  (checkActiveUserCommand cat u cmd).isOk

variable (u : User O)

/-- The body shared by `"+@"` and `"+"`. -/
def User.grant (cmds : Finset Bytes) : User O :=
  match u.commands with
  | .all => { u with deniedCommands := u.deniedCommands \ cmds }
  | .only commands => { u with commands := .only (commands ∪ cmds) }

/-- The body shared by `"-@"` and `"-"`. -/
def User.revoke (cmds : Finset Bytes) : User O :=
  match u.commands with
  | .all => { u with deniedCommands := u.deniedCommands ∪ cmds }
  | .only commands => { u with commands := .only (commands \ cmds) }

def User.adjust (grant : Bool) (cmds : Finset Bytes) : User O :=
  if grant then u.grant cmds else u.revoke cmds

def modifierError (rule reason : Bytes) : Bytes :=
  text "ERR Error in ACL SETUSER modifier '" ++ rule ++ text "': " ++ reason

/-- One round of `apply_rules_deferred`, with `parse_rule`. -/
def applyRule (u : User O) (rule : Bytes) : Except Bytes (User O) :=
  match readRule rule with
  | .reset => .ok ⟨.only ∅, ∅, cat.resetOthers u.others⟩
  | .allCommands => .ok { u with commands := .all, deniedCommands := ∅ }
  | .noCommands => .ok { u with commands := .only ∅, deniedCommands := ∅ }
  | .category grant category =>
    match cat.categoryCommands (cat.upcase category) with
    | some cmds => .ok (u.adjust grant cmds)
    | none =>
      .error (modifierError rule (text "Unknown command category '" ++ category ++ text "'"))
  | .command grant command =>
    let cmd := cat.normalizeAclCommandName command
    if cmd ∈ cat.aclSupportedCommands then .ok (u.adjust grant {cmd})
    else .error (modifierError rule (text "Unknown command '" ++ command ++ text "'"))
  | .other => do return { u with others := ← cat.otherRule rule u.others }

/-- `apply_rules`. -/
def applyRules (u : User O) (rules : List Bytes) : Except Bytes (User O) := do
  cat.validateRuleLimits rules
  let u ← rules.foldlM (applyRule cat) u
  return { u with others := ← cat.finishOthers u.others }

/-- The records that `SETUSER` rule lists reach from a new user, who may run nothing, or the default
one, who may run everything. -/
inductive Reachable (cat : Catalog O) : User O → Prop where
  | new (others : O) : Reachable cat ⟨.only ∅, ∅, others⟩
  | default (others : O) : Reachable cat ⟨.all, ∅, others⟩
  | rules {u u' : User O} {rules : List Bytes} :
    Reachable cat u → applyRules cat u rules = .ok u' → Reachable cat u'

/-! ### What the rules say about a command -/

/-- Does the rule cover the command, and if so, does it grant it? -/
def verdict (cmd rule : Bytes) : Option Bool :=
  match readRule rule with
  | .reset | .noCommands => some false
  | .allCommands => some true
  | .category grant category =>
    if ∃ cmds ∈ cat.categoryCommands (cat.upcase category), cmd ∈ cmds then some grant else none
  | .command grant command =>
    if cat.normalizeAclCommandName command ∈ cat.names cmd then some grant else none
  | _ => none

/-- Does the record grant all commands but those it lists? -/
def User.grantsAll : Bool :=
  u.commands = .all

/-- Does the record grant a name, whatever it does with the container? -/
def User.grants (name : Bytes) : Bool :=
  match u.commands with
  | .all => name ∉ u.deniedCommands
  | .only commands => name ∈ commands

/-- What a rule does to all commands. -/
def allVerdict (rule : Bytes) : Option Bool :=
  match readRule rule with
  | .reset | .noCommands => some false
  | .allCommands => some true
  | _ => none

/-- What a rule does to a name, as a member of its category or as the name of the rule. -/
def nameVerdict (name rule : Bytes) : Option Bool :=
  match readRule rule with
  | .category grant category =>
    if ∃ cmds ∈ cat.categoryCommands (cat.upcase category), name ∈ cmds then some grant else none
  | .command grant command =>
    if cat.normalizeAclCommandName command = name then some grant else none
  | _ => allVerdict rule

/-- What holds after the rules, where `before` held before them and `verdict` says what one does. -/
def lastOr (verdict : Bytes → Option Bool) (rules : List Bytes) (before : Bool) : Bool :=
  (rules.filterMap verdict).getLast?.getD before

/-- What the last rule that covers the command says, or what held before. -/
def covered (rules : List Bytes) : Bool :=
  lastOr (verdict cat cmd) rules (mayRun cat u cmd)

/-- The names of the command, each by the last rule about it, agree with the last rule that covers
the command: every name where that rule says what is so for all commands, and one name where it
makes the command an exception. -/
def Settled (rules : List Bytes) : Prop :=
  let agrees name := lastOr (nameVerdict cat name) rules (u.grants name) = covered cat cmd u rules
  if lastOr allVerdict rules u.grantsAll = covered cat cmd u rules then
    ∀ name ∈ cat.names cmd, agrees name
  else ∃ name ∈ cat.names cmd, agrees name

instance (rules : List Bytes) : Decidable (Settled cat cmd u rules) := by
  unfold Settled
  infer_instance

/-- A record without all commands has no denied ones. -/
def User.Sound : Prop :=
  u.commands ≠ .all → u.deniedCommands = ∅

end model

/-! ### The lookup -/

section lookup

variable {O : Type} {cat : Catalog O} {u u' : User O} {cmd rule : Bytes} {rules : List Bytes}

/-- With all commands granted a command needs each of its names, and otherwise one of them. -/
theorem mayRun_eq (h : u.Sound) :
    mayRun cat u cmd = if u.grantsAll then decide (∀ name ∈ cat.names cmd, u.grants name)
      else decide (∃ name ∈ cat.names cmd, u.grants name) := by
  unfold mayRun checkActiveUserCommand User.grantsAll User.grants
  cases hc : u.commands with
  | all =>
    by_cases hl : ∃ name ∈ cat.names cmd, name ∈ u.deniedCommands
    · simp [Catalog.commandListed, hl, Except.isOk, Except.toBool]
    · simp only [Catalog.commandListed, hl, decide_false, Bool.false_eq_true, if_false]
      simpa [Except.isOk, Except.toBool] using hl
  | only commands =>
    have hd : u.deniedCommands = ∅ := h (by simp [hc])
    by_cases hl : ∃ name ∈ cat.names cmd, name ∈ commands
    · simp [Catalog.commandListed, hd, hl, Except.isOk, Except.toBool]
    · simp [Catalog.commandListed, hd, hl, Except.isOk, Except.toBool]

section

variable (grant : Bool) (cmds : Finset Bytes)

theorem grantsAll_adjust : (u.adjust grant cmds).grantsAll = u.grantsAll := by
  unfold User.adjust User.grant User.revoke User.grantsAll
  cases u.commands <;> cases grant <;> simp

/-- A rule about `cmds` decides the names among them and no others. -/
theorem grants_adjust {name : Bytes} :
    (u.adjust grant cmds).grants name = if name ∈ cmds then grant else u.grants name := by
  unfold User.adjust User.grant User.revoke User.grants
  by_cases hin : name ∈ cmds <;> cases u.commands <;> cases grant <;> simp [hin]

theorem User.Sound.adjust (h : u.Sound) : (u.adjust grant cmds).Sound := by
  unfold User.Sound User.adjust User.grant User.revoke at *
  cases hc : u.commands <;> cases grant <;> simp_all

end

/-- What a rule does to the commands of a record. -/
theorem applyRule_commands (h : applyRule cat u rule = .ok u') :
    (u'.commands = u.commands ∧ u'.deniedCommands = u.deniedCommands ∧ readRule rule = .other) ∨
      (u'.commands = .only ∅ ∧ u'.deniedCommands = ∅ ∧
        (readRule rule = .reset ∨ readRule rule = .noCommands)) ∨
      (u'.commands = .all ∧ u'.deniedCommands = ∅ ∧ readRule rule = .allCommands) ∨
      (∃ grant category cmds, readRule rule = .category grant category ∧
        cat.categoryCommands (cat.upcase category) = some cmds ∧ u' = u.adjust grant cmds) ∨
      ∃ grant command, readRule rule = .command grant command ∧
        u' = u.adjust grant {cat.normalizeAclCommandName command} := by
  unfold applyRule at h
  cases hr : readRule rule <;> simp only [hr] at h ⊢
  case category grant category =>
    split at h
    · next cmds hcmds =>
        cases h
        simp [hcmds]
    · cases h
  case command =>
    split at h
    · cases h
      simp
    · exact nomatch h
  case other =>
    obtain ⟨others, -, h⟩ := bind_eq_ok_iff.mp h
    cases h
    simp
  all_goals
    cases h
    simp

theorem User.Sound.applyRule (hu : u.Sound) (h : FerricStore.Acl.applyRule cat u rule = .ok u') :
    u'.Sound := by
  rcases applyRule_commands h with ⟨hc, hd, -⟩ | ⟨-, hd, -⟩ | ⟨-, hd, -⟩ |
    ⟨grant, _, cmds, -, -, he⟩ | ⟨grant, _, -, he⟩
  · intro hne
    rw [hd]
    exact hu (hc ▸ hne)
  · exact fun _ => hd
  · exact fun _ => hd
  · exact he ▸ hu.adjust grant cmds
  · exact he ▸ hu.adjust grant _

/-- One rule: what it says of all commands and of a name is so afterwards, and the rest stays. -/
theorem applyRule_grants (h : applyRule cat u rule = .ok u') :
    u'.grantsAll = (allVerdict rule).getD u.grantsAll ∧
      ∀ name, u'.grants name = (nameVerdict cat name rule).getD (u.grants name) := by
  rcases applyRule_commands h with ⟨hc, hd, hr⟩ | ⟨hc, hd, hr | hr⟩ | ⟨hc, hd, hr⟩ |
    ⟨grant, category, cmds, hr, hcmds, rfl⟩ | ⟨grant, command, hr, rfl⟩
  · simp [allVerdict, nameVerdict, hr, User.grantsAll, User.grants, hc, hd]
  · simp [allVerdict, nameVerdict, hr, User.grantsAll, User.grants, hc]
  · simp [allVerdict, nameVerdict, hr, User.grantsAll, User.grants, hc]
  · simp [allVerdict, nameVerdict, hr, User.grantsAll, User.grants, hc, hd]
  · refine ⟨by simp [allVerdict, hr, grantsAll_adjust], fun name => ?_⟩
    rw [grants_adjust]
    simp only [nameVerdict, hr, hcmds, Option.mem_some_iff, exists_eq_left']
    split <;> rfl
  · refine ⟨by simp [allVerdict, hr, grantsAll_adjust], fun name => ?_⟩
    rw [grants_adjust]
    simp only [nameVerdict, hr, Finset.mem_singleton, eq_comm]
    split <;> rfl

theorem User.Sound.foldlM (hu : u.Sound)
    (h : rules.foldlM (FerricStore.Acl.applyRule cat) u = .ok u') : u'.Sound := by
  induction rules generalizing u with
  | nil =>
    cases h
    exact hu
  | cons rule rest ih =>
    rw [List.foldlM_cons, bind_eq_ok_iff] at h
    obtain ⟨u₁, hrule, hrest⟩ := h
    exact ih (hu.applyRule hrule) hrest

/-- A list of rules, for a part of the record that each rule sets or leaves. -/
theorem lastOr_foldlM {verdict : Bytes → Option Bool} {part : User O → Bool}
    (hstep : ∀ {u u' rule}, applyRule cat u rule = .ok u' →
      part u' = (verdict rule).getD (part u))
    (h : rules.foldlM (applyRule cat) u = .ok u') : part u' = lastOr verdict rules (part u) := by
  induction rules generalizing u with
  | nil =>
    cases h
    rfl
  | cons rule rest ih =>
    rw [List.foldlM_cons, bind_eq_ok_iff] at h
    obtain ⟨u₁, hrule, hrest⟩ := h
    rw [ih hrest, hstep hrule]
    unfold lastOr
    cases hv : verdict rule with
    | none => simp [hv]
    | some grant => simp [hv, List.getLast?_cons]

theorem applyRules_ok (h : applyRules cat u rules = .ok u') :
    ∃ u₁ others, rules.foldlM (applyRule cat) u = .ok u₁ ∧ { u₁ with others } = u' := by
  obtain ⟨_, -, h⟩ := bind_eq_ok_iff.mp h
  obtain ⟨u₁, hu₁, h⟩ := bind_eq_ok_iff.mp h
  obtain ⟨others, -, h⟩ := bind_eq_ok_iff.mp h
  exact ⟨u₁, others, hu₁, Except.ok.inj h⟩

theorem Reachable.sound (h : Reachable cat u) : u.Sound := by
  induction h with
  | new => exact fun _ => rfl
  | default => exact fun _ => rfl
  | rules _ h ih =>
    obtain ⟨u₁, others, hu₁, rfl⟩ := applyRules_ok h
    exact (ih.foldlM hu₁ : u₁.Sound)

/-- A command without a container has one name, and what covers it is about that name. -/
theorem settled_of_no_container (hu : u.Sound) (hnone : cat.container cmd = none) :
    Settled cat cmd u rules := by
  have hnames : cat.names cmd = {cmd} := by simp [Catalog.names, hnone]
  have hverdict : nameVerdict cat cmd = verdict cat cmd := by
    funext rule
    unfold nameVerdict verdict allVerdict
    cases readRule rule <;> simp [hnames]
  have hgrants : u.grants cmd = mayRun cat u cmd := by
    rw [mayRun_eq hu, hnames]
    cases u.grantsAll <;> simp
  simp [Settled, covered, hnames, hverdict, hgrants]

end lookup

/-- The last rule of an accepted list that covers a command decides whether the user may run it
afterwards, and a command that no rule covers is left as it was, if and only if the names of the
command are settled by the list; a command without a container always is. -/
theorem last_covering_rule_decides {O : Type} (cat : Catalog O) {u u' : User O}
    {rules : List Bytes} (hu : Reachable cat u) (h : applyRules cat u rules = .ok u')
    (cmd : Bytes) :
    (mayRun cat u' cmd = covered cat cmd u rules ↔ Settled cat cmd u rules) ∧
      (cat.container cmd = none → Settled cat cmd u rules) := by
  refine ⟨?_, settled_of_no_container hu.sound⟩
  have hu' : u'.Sound := (hu.rules h).sound
  obtain ⟨u₁, others, hu₁, rfl⟩ := applyRules_ok h
  have hall := lastOr_foldlM (fun hrule => (applyRule_grants hrule).1) hu₁
  have hname := fun name => lastOr_foldlM (fun hrule => (applyRule_grants hrule).2 name) hu₁
  rw [mayRun_eq hu', Settled, ← hall]
  simp only [← hname]
  -- for all commands granted each name counts, and otherwise one name is enough
  change (if u₁.grantsAll then decide (∀ name ∈ cat.names cmd, u₁.grants name)
    else decide (∃ name ∈ cat.names cmd, u₁.grants name)) = _ ↔ _
  cases u₁.grantsAll <;> cases covered cat cmd u rules <;> simp

/-- The part of the command tables about clients, in ASCII, with one flag for the other fields. -/
def clientCatalog : Catalog Bool where
  aclSupportedCommands := {text "CLIENT", text "CLIENT.LIST", text "CLIENT.KILL", text "CLIENT.ID"}
  categoryCommands name :=
    if name = text "ADMIN" then some {text "CLIENT", text "CLIENT.LIST", text "CLIENT.KILL"}
    else if name = text "CONNECTION" then some {text "CLIENT.ID"}
    else if name = text "DANGEROUS" then some {text "CLIENT.LIST", text "CLIENT.KILL"}
    else none
  upcase bytes := bytes.map fun byte => if 97 ≤ byte ∧ byte ≤ 122 then byte - 32 else byte
  downcase bytes := bytes.map fun byte => if 65 ≤ byte ∧ byte ≤ 90 then byte + 32 else byte
  resetOthers _ := false
  otherRule rule _ :=
    if rule = text "on" then .ok true else if rule = text "off" then .ok false
    else .error (modifierError rule (text "Syntax error"))
  validateRuleLimits _ := .ok ()
  finishOthers := .ok

/-- A category that is granted and denied again takes out the subcommand that was granted before it,
and one that has only the container leaves a granted subcommand. -/
theorem granted_and_denied_again :
    (∃ u', applyRules clientCatalog ⟨.only ∅, ∅, false⟩
        [text "+client|kill", text "+@admin", text "on", text "-@admin"] = .ok u' ∧
      mayRun clientCatalog u' (text "CLIENT.KILL") = false) ∧
    ∃ u', applyRules clientCatalog ⟨.only ∅, ∅, false⟩ [text "+client|id", text "+@admin"] =
        .ok u' ∧
      mayRun clientCatalog u' (text "CLIENT.ID") = true := by
  have hkill : applyRules clientCatalog ⟨.only ∅, ∅, false⟩
      [text "+client|kill", text "+@admin", text "on", text "-@admin"] =
        .ok ⟨.only ∅, ∅, true⟩ := by
    decide +kernel
  have hid : applyRules clientCatalog ⟨.only ∅, ∅, false⟩ [text "+client|id", text "+@admin"] =
      .ok ⟨.only ({text "CLIENT.ID"} ∪ {text "CLIENT", text "CLIENT.LIST", text "CLIENT.KILL"}), ∅,
        false⟩ := by
    decide +kernel
  have hsettled := (last_covering_rule_decides clientCatalog (.new false) hkill
    (text "CLIENT.KILL")).1.mpr (by decide +kernel)
  have hsettled' := (last_covering_rule_decides clientCatalog (.new false) hid
    (text "CLIENT.ID")).1.mpr (by decide +kernel)
  exact ⟨⟨_, hkill, hsettled.trans (by decide +kernel)⟩,
    ⟨_, hid, hsettled'.trans (by decide +kernel)⟩⟩

/-- A subcommand denied after its container was granted can still be run, and one granted after
its container was denied cannot. -/
theorem container_rule_outlives_subcommand_rule :
    (∃ u', applyRules clientCatalog ⟨.only ∅, ∅, false⟩ [text "+client", text "-client|kill"] =
        .ok u' ∧
      covered clientCatalog (text "CLIENT.KILL") ⟨.only ∅, ∅, false⟩
        [text "+client", text "-client|kill"] = false ∧
      mayRun clientCatalog u' (text "CLIENT.KILL") = true) ∧
    ∃ u', applyRules clientCatalog ⟨.all, ∅, true⟩ [text "-client", text "+client|kill"] = .ok u' ∧
      covered clientCatalog (text "CLIENT.KILL") ⟨.all, ∅, true⟩
        [text "-client", text "+client|kill"] = true ∧
      mayRun clientCatalog u' (text "CLIENT.KILL") = false := by
  refine ⟨⟨⟨.only {text "CLIENT"}, ∅, false⟩, ?_, ?_, ?_⟩,
    ⟨⟨.all, {text "CLIENT"}, true⟩, ?_, ?_, ?_⟩⟩ <;> decide +kernel

end FerricStore.Acl
