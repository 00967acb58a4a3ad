import Chickadee.Impl.Command

/-!
This module contains the grammar of the commands and what the parser makes of it. It is the grammar,
but for words that follow a `quit` or a `help`, which the parser ignores.
-/

namespace Chickadee

inductive Verb where
  | set
  | get
  | delete
  | quit
  | help
  deriving DecidableEq, Repr

namespace Verb

def all : List Verb :=
  [set, get, delete, quit, help]

def aliases : Verb → List String
  | set => ["set", "s"]
  | get => ["get", "g"]
  | delete => ["delete", "del", "d"]
  | quit => ["quit", "q", "exit"]
  | help => ["help", "h"]

def arity : Verb → Nat
  | set => 2
  | get => 1
  | delete => 1
  | quit => 0
  | help => 0

def command (verb : Verb) (args : List String) : Command :=
  match verb with
  | set => .set (args.getD 0 "") (args.getD 1 "")
  | get => .get (args.getD 0 "")
  | delete => .delete (args.getD 0 "")
  | quit => .quit
  | help => .help

end Verb

def verbOf (word : String) : Option Verb :=
  Verb.all.find? fun verb => toLowercase word ∈ verb.aliases

def grammar : List String → Except CommandError Command
  | [] => .error .missingRequiredArguments
  | word :: args =>
    match verbOf word with
    | none => .error .unrecognizedCommand
    | some verb =>
      if args.length < verb.arity then
        .error .missingRequiredArguments
      else if verb.arity < args.length then
        .error .tooManyArguments
      else
        .ok (verb.command args)

def printed (word : String) (args : List String) : String :=
  args.foldl (fun line arg => line ++ " " ++ arg) word

def Surplus (words : List String) : Prop :=
  ∃ word args, words = word :: args ∧ args ≠ []
    ∧ (verbOf word = some .quit ∨ verbOf word = some .help)

/-
What the parser does is the grammar, but that it counts the words of a `set`, a `get` and a `delete`
only.
-/
theorem tryFrom_eq {line word : String} {args : List String}
    (hwords : splitWhitespace line = word :: args) :
    Command.tryFrom line
      =
    match verbOf word with
    | none => .error .unrecognizedCommand
    | some verb =>
      if args.length < verb.arity then
        .error .missingRequiredArguments
      else if verb.arity < args.length ∧ verb ≠ .quit ∧ verb ≠ .help then
        .error .tooManyArguments
      else
        .ok (verb.command args) := by
  unfold Command.tryFrom verbOf
  rw [hwords]
  dsimp only
  generalize toLowercase word = lower
  split
  . rcases args with _ | ⟨key, _ | ⟨value, _ | ⟨x, args⟩⟩⟩ <;> rfl
  . rcases args with _ | ⟨key, _ | ⟨value, _ | ⟨x, args⟩⟩⟩ <;> rfl
  . rcases args with _ | ⟨key, _ | ⟨x, args⟩⟩ <;> rfl
  . rcases args with _ | ⟨key, _ | ⟨x, args⟩⟩ <;> rfl
  . rcases args with _ | ⟨key, _ | ⟨x, args⟩⟩ <;> rfl
  . rcases args with _ | ⟨key, _ | ⟨x, args⟩⟩ <;> rfl
  . rcases args with _ | ⟨key, _ | ⟨x, args⟩⟩ <;> rfl
  . rcases args with _ | ⟨x, args⟩ <;> rfl
  . rcases args with _ | ⟨x, args⟩ <;> rfl
  . rcases args with _ | ⟨x, args⟩ <;> rfl
  . rcases args with _ | ⟨x, args⟩ <;> rfl
  . rcases args with _ | ⟨x, args⟩ <;> rfl
  . next h1 h2 h3 h4 h5 h6 h7 h8 h9 h10 h11 h12 =>
    have hnone : (Verb.all.find? fun verb => lower ∈ verb.aliases) = none := by
      rw [List.find?_eq_none]
      intro verb _ hmem
      have hmem := of_decide_eq_true hmem
      cases verb <;> simp_all [Verb.aliases]
    rw [hnone]

theorem tryFrom_nil {line : String} (hwords : splitWhitespace line = []) :
    Command.tryFrom line = .error .missingRequiredArguments := by
  unfold Command.tryFrom
  rw [hwords]

theorem tryFrom_eq_grammar_iff (line : String) :
    Command.tryFrom line = grammar (splitWhitespace line) ↔ ¬Surplus (splitWhitespace line) := by
  cases hwords : splitWhitespace line with
  | nil =>
    rw [tryFrom_nil hwords]
    constructor
    . rintro - ⟨_, _, hnil, -⟩
      contradiction
    . intro
      rfl
  | cons word args =>
    rw [tryFrom_eq hwords, grammar]
    cases hverb : verbOf word with
    | none =>
      constructor
      . rintro - ⟨word', _, heq, -, hquit⟩
        cases heq
        rw [hverb] at hquit
        simp at hquit
      . intro
        rfl
    | some verb =>
      dsimp only
      by_cases hfree : verb = .quit ∨ verb = .help
      . have harity : verb.arity = 0 := by rcases hfree with rfl | rfl <;> rfl
        have hcounted : ¬(verb.arity < args.length ∧ verb ≠ .quit ∧ verb ≠ .help) := by
          rintro ⟨-, hquit, hhelp⟩
          exact hfree.elim hquit hhelp
        rw [if_neg (by omega), if_neg hcounted, if_neg (by omega)]
        cases args with
        | nil =>
          rw [if_neg (by simp)]
          constructor
          . rintro - ⟨_, _, heq, hne, -⟩
            cases heq
            contradiction
          . intro
            rfl
        | cons arg args =>
          rw [if_pos (by simp [harity])]
          constructor
          . intro heq
            contradiction
          . intro hnot
            apply absurd _ hnot
            refine ⟨word, arg :: args, rfl, by simp, ?_⟩
            rw [hverb]
            exact hfree.imp (congrArg some) (congrArg some)
      . rw [not_or] at hfree
        have hcounted : (verb.arity < args.length ∧ verb ≠ .quit ∧ verb ≠ .help)
            ↔ verb.arity < args.length := by
          simp [hfree.1, hfree.2]
        simp only [hcounted, true_iff]
        rintro ⟨word', _, heq, -, hquit⟩
        cases heq
        rw [hverb] at hquit
        simp [hfree.1, hfree.2] at hquit

theorem splitOnP_words (word : List Char) (args : List (List Char))
    (hword : ∀ ch ∈ word, isWhitespace ch = false)
    (hargs : ∀ arg ∈ args, ∀ ch ∈ arg, isWhitespace ch = false) :
    (word ++ args.flatMap fun arg => ' ' :: arg).splitOnP isWhitespace = word :: args := by
  induction args generalizing word with
  | nil =>
    rw [List.flatMap_nil, List.append_nil]
    exact List.splitOnP_eq_singleton hword
  | cons arg args ih =>
    rw [List.flatMap_cons, List.cons_append]
    rw [List.splitOnP_append_cons_of_forall_mem hword ' ' (by decide)]
    rw [ih arg (hargs arg List.mem_cons_self) fun a ha => hargs a (List.mem_cons_of_mem _ ha)]

theorem toList_printed (word : String) (args : List String) :
    (printed word args).toList
      = word.toList ++ (args.map String.toList).flatMap fun arg => ' ' :: arg := by
  unfold printed
  induction args generalizing word with
  | nil => simp
  | cons arg args ih =>
    rw [List.foldl_cons, ih]
    simp

theorem splitWhitespace_printed {word : String} {args : List String}
    (hword : word ≠ "" ∧ ∀ ch ∈ word.toList, isWhitespace ch = false)
    (hargs : ∀ arg ∈ args, arg ≠ "" ∧ ∀ ch ∈ arg.toList, isWhitespace ch = false) :
    splitWhitespace (printed word args) = word :: args := by
  have hne : ∀ arg : String, arg ≠ "" → arg.toList ≠ [] := by
    intro arg h hnil
    exact h (String.toList_eq_nil_iff.mp hnil)
  unfold splitWhitespace
  rw [toList_printed, splitOnP_words _ _ hword.2, List.filter_eq_self.mpr, List.map_cons,
    List.map_map, String.ofList_toList]
  . congr 1
    conv => rhs; rw [← List.map_id args]
    apply List.map_congr_left
    intro arg _
    exact String.ofList_toList
  . intro chars hchars
    apply decide_eq_true
    cases List.mem_cons.mp hchars with
    | inl heq =>
      rw [heq]
      exact hne word hword.1
    | inr hmem =>
      rw [List.mem_map] at hmem
      rcases hmem with ⟨arg, harg, rfl⟩
      exact hne arg (hargs arg harg).1
  . intro chars hchars
    rw [List.mem_map] at hchars
    rcases hchars with ⟨arg, harg, rfl⟩
    exact (hargs arg harg).2

theorem lowerChar_of_letter {ch : Char} (h : 97 ≤ ch.toLower.toNat ∧ ch.toLower.toNat ≤ 122) :
    lowerChar ch = [ch.toLower] ∧ isWhitespace ch = false := by
  have hrange : 65 ≤ ch.toNat ∧ ch.toNat ≤ 122 := by
    unfold Char.toLower at h
    split at h
    . next hupper =>
      have hle : 65 ≤ ch.toNat ∧ ch.toNat ≤ 90 := hupper
      omega
    . omega
  constructor
  . unfold lowerChar
    rw [if_neg (by omega), if_neg (by omega)]
  . simp only [isWhitespace, Bool.or_eq_false_iff, Bool.and_eq_false_iff, decide_eq_false_iff_not,
      beq_eq_false_iff_ne]
    omega

def wellSpelt (verb : Verb) (name : String) : Bool :=
  name.toList.all (fun ch => 97 ≤ ch.toNat && ch.toNat ≤ 122) && !name.isEmpty
    && Verb.all.find? (fun verb => name ∈ verb.aliases) == some verb

theorem all_wellSpelt (verb : Verb) : verb.aliases.all (wellSpelt verb) = true := by
  cases verb <;> decide +kernel

theorem letter_of_mem_aliases {verb : Verb} {name : String} (h : name ∈ verb.aliases) :
    (∀ ch ∈ name.toList, 97 ≤ ch.toNat ∧ ch.toNat ≤ 122) ∧ name ≠ ""
      ∧ (Verb.all.find? fun verb => name ∈ verb.aliases) = some verb := by
  have hspelt := List.all_eq_true.mp (all_wellSpelt verb) name h
  simpa [wellSpelt, and_assoc] using hspelt

/--
The parser accepts what the grammar says, but for the words behind a `quit` or a `help`. A command
that is printed is parsed again, whatever the case of its first word.
-/
theorem tryFrom_grammar (line : String) :
    (Command.tryFrom line = grammar (splitWhitespace line) ↔ ¬Surplus (splitWhitespace line))
      ∧ ∀ verb : Verb, ∀ name ∈ verb.aliases, ∀ word : String,
        word.toList.map Char.toLower = name.toList → ∀ args : List String,
        args.length = verb.arity →
        (∀ arg ∈ args, arg ≠ "" ∧ ∀ ch ∈ arg.toList, isWhitespace ch = false) →
        Command.tryFrom (printed word args) = .ok (verb.command args) := by
  refine ⟨tryFrom_eq_grammar_iff line, ?_⟩
  intro verb name halias word hword args hlen hargs
  rcases letter_of_mem_aliases halias with ⟨hletters, hne, hfind⟩
  have hchar : ∀ ch ∈ word.toList, lowerChar ch = [ch.toLower] ∧ isWhitespace ch = false := by
    intro ch hch
    apply lowerChar_of_letter
    apply hletters
    rw [← hword]
    exact List.mem_map_of_mem hch
  have hlower : toLowercase word = name := by
    unfold toLowercase
    rw [List.flatMap_congr fun ch hch => (hchar ch hch).1, ← List.map_eq_flatMap, hword,
      String.ofList_toList]
  have hnonempty : word ≠ "" := by
    intro hempty
    rw [hempty] at hword
    exact hne (String.toList_eq_nil_iff.mp hword.symm)
  have hverb : verbOf word = some verb := by
    unfold verbOf
    rw [hlower]
    exact hfind
  have hwords := splitWhitespace_printed
    ⟨hnonempty, fun ch hch => (hchar ch hch).2⟩ hargs
  rw [tryFrom_eq hwords, hverb]
  dsimp only
  rw [if_neg (by omega), if_neg (fun h => by omega)]

theorem quit_ignores_words :
    Surplus (splitWhitespace "quit now") ∧ Command.tryFrom "quit now" = .ok .quit
      ∧ grammar (splitWhitespace "quit now") = .error .tooManyArguments := by
  refine ⟨⟨"quit", ["now"], ?_, ?_, ?_⟩, ?_, ?_⟩
  . decide +kernel
  . decide
  . decide +kernel
  . decide +kernel
  . decide +kernel

theorem tryFrom_grammar_set :
    Command.tryFrom (printed "SeT" ["Key", "Value"]) = .ok (.set "Key" "Value") := by
  apply (tryFrom_grammar (printed "SeT" ["Key", "Value"])).2 .set "set" (by decide) "SeT"
    (by decide) ["Key", "Value"] rfl
  intro arg harg
  have hplain : ["Key", "Value"].all (fun arg => !arg.isEmpty
      && arg.toList.all fun ch => !isWhitespace ch) = true := by decide +kernel
  simpa using List.all_eq_true.mp hplain arg harg

end Chickadee
