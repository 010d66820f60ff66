import MathMarkup.Proofs.Normal.Display
import MathMarkup.Proofs.Sorting
import MathMarkup.Tex.Check

/-!
# The lines and the order of findings

A finding is reported with the line of its place, and findings are sorted by their places. A later place is
on no earlier line (`lineOf_mono`), so the lines come in order. Sorting is stable: leaving findings out
before it or behind it is the same (`filter_mergeSort`). A configuration that accepts more commands, or does
not look at commands at all, only leaves out what it accepts.

Main theorem: `check_of_widened`.
-/

namespace MathMarkup.Tex

open Text

variable {s : List Char} {m n : Nat} {config narrow wide : Config}

/-! ## Lines -/

theorem lineOf_cons (c : Char) (s : List Char) (n : Nat) :
    lineOf (c :: s) n = if n = 0 then 1 else lineOf s (n - c.utf8Size) + if c = '\n' then 1 else 0 := by
  cases n with
  | zero => rfl
  | succ n => rw [if_neg (Nat.succ_ne_zero n), lineOf, lineOf.go, lineOf]; omega

@[simp] theorem lineOf_zero (s : List Char) : lineOf s 0 = 1 := by cases s <;> rfl

@[simp] theorem lineOf_nil (n : Nat) : lineOf [] n = 1 := by cases n <;> rfl

/-- The first line has number one. -/
theorem one_le_lineOf (s : List Char) (n : Nat) : 1 ≤ lineOf s n := Nat.le_add_right 1 _

/-- A later place is on no earlier line. -/
theorem lineOf_mono (h : m ≤ n) (s : List Char) : lineOf s m ≤ lineOf s n := by
  induction s generalizing m n with
  | nil => simp
  | cons c s ih =>
    rw [lineOf_cons, lineOf_cons]
    by_cases hm : m = 0
    · rw [if_pos hm]
      split
      · exact Nat.le_refl 1
      · exact Nat.le_add_right_of_le (one_le_lineOf s _)
    · rw [if_neg hm, if_neg (show ¬ n = 0 by omega)]
      exact Nat.add_le_add_right (ih (Nat.sub_le_sub_right h _)) _

/-- There is a line more than there are line feeds. -/
theorem lineOf_le (s : List Char) (n : Nat) : lineOf s n ≤ 1 + s.count '\n' := by
  induction s generalizing n with
  | nil => simp
  | cons c s ih =>
    rw [lineOf_cons, List.count_cons]
    have := ih (n - c.utf8Size)
    split
    · omega
    · simp only [beq_iff_eq]
      omega

/-! ## Order -/

theorem position_trans (f g h : Finding) : decide (f.position ≤ g.position) → decide (g.position ≤ h.position) →
    decide (f.position ≤ h.position) := by
  simpa using Nat.le_trans

theorem position_total (f g : Finding) : decide (f.position ≤ g.position) || decide (g.position ≤ f.position) := by
  simpa using Nat.le_total f.position g.position

theorem filter_findings (config : Config) (s : List Char) (p : Finding → Bool) :
    (findings config s).filter p =
      ((pairingFindings s ++ argumentFindings s ++
        if config.grammarChecks then commandFindings config s else []).filter p).mergeSort
          fun a b => a.position ≤ b.position :=
  filter_mergeSort position_trans position_total p _

/-! ## Commands that are accepted -/

/-- Does the configuration accept the command? Without grammar checks it accepts every one. -/
def acceptsCommand (config : Config) (name : List Char) : Bool :=
  !config.grammarChecks || isKnownCommand (String.ofList name) || config.knowsCommand name

/-- The command that the diagnostic calls unknown. -/
def unknownName? (d : Diagnostic) : Option (List Char) :=
  if d.category = .undefinedCommand then between? "Undefined command '\\".toList "'".toList d.message.toList else none

/-- Is the diagnostic about a command that the configuration accepts? -/
def isAccepted (config : Config) (d : Diagnostic) : Bool := (unknownName? d).any (acceptsCommand config)

theorem toList_append_ofList (a b : String) (name : List Char) :
    (a ++ String.ofList name ++ b).toList = a.toList ++ (name ++ b.toList) := by
  rw [String.toList_append, String.toList_append, String.toList_ofList, List.append_assoc]

theorem unknownName?_unknownCommand (name : List Char) (position : Nat) (s : List Char) :
    unknownName? (Finding.toDiagnostic s (.unknownCommand name position)) = some name := by
  have hcategory : (Finding.toDiagnostic s (.unknownCommand name position)).category = .undefinedCommand := rfl
  have hmessage : (Finding.toDiagnostic s (.unknownCommand name position)).message =
      "Undefined command '\\" ++ String.ofList name ++ "'" := rfl
  rw [unknownName?, if_pos hcategory, hmessage, toList_append_ofList, between?_eq_some_iff]

theorem isAccepted_unknownCommand (config : Config) (s name : List Char) (position : Nat) :
    isAccepted config (Finding.toDiagnostic s (.unknownCommand name position)) = acceptsCommand config name := by
  rw [isAccepted, unknownName?_unknownCommand, Option.any_some]

/-- Nothing but an unknown command is accepted. -/
theorem isAccepted_eq_false {f : Finding} (hf : f.category ≠ .undefinedCommand) (config : Config) (s : List Char) :
    isAccepted config (f.toDiagnostic s) = false := by
  have hcategory : (f.toDiagnostic s).category ≠ .undefinedCommand := hf
  rw [isAccepted, unknownName?, if_neg hcategory, Option.any_none]

/-- The configuration accepts at least what another one accepts. -/
structure Widens (narrow wide : Config) : Prop where
  extraCommands : narrow.extraCommands ⊆ wide.extraCommands
  grammarChecks : wide.grammarChecks = true → narrow.grammarChecks = true

theorem Widens.knowsCommand (h : Widens narrow wide) {name : List Char} (hname : narrow.knowsCommand name = true) :
    wide.knowsCommand name = true := by
  obtain ⟨command, hmem, hcommand⟩ := List.any_eq_true.1 hname
  exact List.any_eq_true.2 ⟨command, h.extraCommands hmem, hcommand⟩

/-! ## Findings and tokens -/

/-- A command that misses arguments is one of the tokens. -/
theorem exists_of_mem_argumentFindingsOf {ts : List Token} {f : Finding} (h : f ∈ argumentFindingsOf s ts) :
    ∃ t ∈ ts, ∃ rest, missingArguments? t rest = some f := by
  induction ts generalizing s with
  | nil => cases h
  | cons t ts ih =>
    rcases List.mem_append.1 h with h | h
    · exact ⟨t, List.mem_cons_self, _, Option.mem_toList.1 h⟩
    · obtain ⟨u, hu, hf⟩ := ih h
      exact ⟨u, List.mem_cons_of_mem t hu, hf⟩

theorem eq_of_missingArguments? {t : Token} {rest : List Char} {f : Finding}
    (h : missingArguments? t rest = some f) :
    t.kind = .command ∧ ∃ expected actual, f = .missingArguments t.text.tail t.offset expected actual := by
  rw [missingArguments?] at h
  split at h
  · cases h
  · rename_i hkind
    obtain ⟨expected, -, h⟩ := Option.bind_eq_some_iff.1 h
    obtain ⟨-, rfl⟩ := Option.ite_some_none_eq_some.1 h
    exact ⟨by simpa using hkind, expected, _, rfl⟩

theorem unknownCommand?_eq_some_iff {t : Token} {f : Finding} : unknownCommand? config t = some f ↔
    ∃ name, t.word? = some name ∧ (isKnownCommand (String.ofList name) || config.knowsCommand name) = false ∧
      f = .unknownCommand name t.offset := by
  rw [unknownCommand?, Option.bind_eq_some_iff]
  refine exists_congr fun name => and_congr_right fun _ => ?_
  rw [Option.ite_none_left_eq_some, Bool.not_eq_true, Option.some_inj, eq_comm (a := f)]

/-! ## More commands -/

/-- What a configuration that accepts more commands still reports of a token. -/
theorem Widens.unknownCommand? (h : Widens narrow wide) (hchecks : wide.grammarChecks = true) (s : List Char)
    (t : Token) : unknownCommand? wide t =
      (unknownCommand? narrow t).filter fun f => !isAccepted wide (f.toDiagnostic s) := by
  refine Option.ext fun f => ?_
  rw [Option.filter_eq_some_iff, unknownCommand?_eq_some_iff, unknownCommand?_eq_some_iff]
  have haccepts : ∀ name, acceptsCommand wide name =
      (isKnownCommand (String.ofList name) || wide.knowsCommand name) := by
    intro name
    rw [acceptsCommand, hchecks, Bool.not_true, Bool.false_or]
  constructor
  · rintro ⟨name, hword, hunknown, rfl⟩
    rw [isAccepted_unknownCommand, haccepts, hunknown]
    refine ⟨⟨name, hword, Bool.eq_false_iff.2 fun hnarrow => ?_, rfl⟩, rfl⟩
    rcases Bool.or_eq_true_iff.1 hnarrow with hbuiltIn | hextra
    · rw [hbuiltIn] at hunknown
      cases hunknown
    · rw [h.knowsCommand hextra, Bool.or_true] at hunknown
      cases hunknown
  · rintro ⟨⟨name, hword, -, rfl⟩, haccepted⟩
    rw [isAccepted_unknownCommand, haccepts, Bool.not_eq_true'] at haccepted
    exact ⟨name, hword, haccepted, rfl⟩

theorem Widens.findings (h : Widens narrow wide) (s : List Char) :
    findings wide s = (findings narrow s).filter fun f => !isAccepted wide (f.toDiagnostic s) := by
  have hpairing : (pairingFindings s).filter (fun f => !isAccepted wide (f.toDiagnostic s)) = pairingFindings s := by
    refine List.filter_eq_self.2 fun f hf => ?_
    obtain ⟨fault, -, rfl⟩ := List.mem_map.1 hf
    rw [isAccepted_eq_false Category.noConfusion, Bool.not_false]
  have harguments : (argumentFindings s).filter (fun f => !isAccepted wide (f.toDiagnostic s)) =
      argumentFindings s := by
    refine List.filter_eq_self.2 fun f hf => ?_
    obtain ⟨t, -, rest, hmissing⟩ := exists_of_mem_argumentFindingsOf hf
    obtain ⟨-, expected, actual, rfl⟩ := eq_of_missingArguments? hmissing
    rw [isAccepted_eq_false Category.noConfusion, Bool.not_false]
  have hvocabulary : (if narrow.grammarChecks then commandFindings narrow s else []).filter
      (fun f => !isAccepted wide (f.toDiagnostic s)) = if wide.grammarChecks then commandFindings wide s else [] := by
    cases hchecks : wide.grammarChecks with
    | true =>
      rw [if_pos (h.grammarChecks hchecks), if_pos rfl, commandFindings, commandFindings, List.filter_filterMap]
      exact List.filterMap_congr fun t _ => (h.unknownCommand? hchecks s t).symm
    | false =>
      rw [if_neg Bool.false_ne_true]
      refine List.filter_eq_nil_iff.2 fun f hf => ?_
      obtain ⟨-, hf⟩ := List.mem_ite_nil_right.1 hf
      obtain ⟨t, -, ht⟩ := List.mem_filterMap.1 hf
      obtain ⟨name, -, -, rfl⟩ := unknownCommand?_eq_some_iff.1 ht
      rw [isAccepted_unknownCommand, acceptsCommand, hchecks]
      exact Bool.false_ne_true
  rw [filter_findings, List.filter_append, List.filter_append, hpairing, harguments, hvocabulary]
  rfl

/-- **More commands accepted** means fewer findings, and nothing else: what is left out are the diagnostics of
the commands that are now accepted, and the others keep their order. The lines of a check come in order and are
lines of the text. -/
theorem check_of_widened (h : Widens narrow wide) (s : List Char) :
    check wide s = (check narrow s).filter (fun d => !isAccepted wide d) ∧
      ∀ config, ∃ lines : List Nat, (check config s).map Diagnostic.line = lines.map some ∧
        lines.Pairwise (· ≤ ·) ∧ ∀ line ∈ lines, 1 ≤ line ∧ line ≤ 1 + s.count '\n' := by
  constructor
  · rw [check, check, h.findings, List.filter_map]
    rfl
  · intro config
    refine ⟨(findings config s).map fun f => lineOf s f.position, ?_, ?_, ?_⟩
    · rw [check, List.map_map, List.map_map]
      rfl
    · have hsorted : (findings config s).Pairwise fun f g => decide (f.position ≤ g.position) = true :=
        List.pairwise_mergeSort position_trans position_total _
      exact List.pairwise_map.2 (hsorted.imp fun hle => lineOf_mono (of_decide_eq_true hle) s)
    · intro line hline
      obtain ⟨f, -, rfl⟩ := List.mem_map.1 hline
      exact ⟨one_le_lineOf s _, lineOf_le s _⟩

/-- A command that is accepted now, between commands that miss arguments. -/
theorem check_of_widened_extra :
    let narrow : Config := {}
    let wide : Config := { extraCommands := ["\\foo"] }
    let s := "\\bar\x7d\n\\foo \\frac1".toList
    Widens narrow wide ∧ check wide s = (check narrow s).filter (fun d => !isAccepted wide d) ∧
      ∀ config, ∃ lines : List Nat, (check config s).map Diagnostic.line = lines.map some ∧
        lines.Pairwise (· ≤ ·) ∧ ∀ line ∈ lines, 1 ≤ line ∧ line ≤ 1 + s.count '\n' := by
  intro narrow wide s
  have hwidens : Widens narrow wide := ⟨by simp [narrow], fun _ => rfl⟩
  exact ⟨hwidens, check_of_widened hwidens s⟩

end MathMarkup.Tex
