import DemandLex.CommandLine.Log
import DemandLex.CommandLine.Options
import Mathlib.Algebra.Ring.Nat

/-! How much is logged. The letters `v` and the flags of the arguments are added up, and the sum stays
at 255; the letters of one argument count modulo 256. -/

namespace DemandLex.CommandLine

namespace Options

def takesOperand (argument : String) : Bool :=
  argument ∈ ["-e", "--eval", "-o", "--output"]

def proper : List String → List String
  | [] => []
  | [argument] => [argument]
  | argument :: operand :: rest =>
    if takesOperand argument then argument :: proper rest
    else argument :: proper (operand :: rest)

def dashed (count : Nat) : String := String.ofList ('-' :: List.replicate count 'v')

def letters (argument : String) : Nat :=
  if argument = dashed (argument.length - 1) then argument.toList.count 'v' else 0

/-- How often an argument asks for more to be logged: once for each letter, or once as a flag. -/
def asked (argument : String) : Nat :=
  letters argument + if argument = "--verbose" then 1 else 0

def times (argument : String) : Nat :=
  letters argument % 256 + if argument = "--verbose" then 1 else 0

def total (count : String → Nat) (arguments : List String) : Nat :=
  ((proper arguments).map count).sum

/-- Letters or flags are added to arguments, and all else stays. -/
inductive Louder : List String → List String → Prop
  | done : Louder [] []
  | keep {argument : String} {rest rest' : List String} (alone : takesOperand argument = false)
      (louder : Louder rest rest') : Louder (argument :: rest) (argument :: rest')
  | keepOperand {argument operand : String} {rest rest' : List String}
      (takes : takesOperand argument = true) (louder : Louder rest rest') :
      Louder (argument :: operand :: rest) (argument :: operand :: rest')
  | lengthen {count more : Nat} {rest rest' : List String} (louder : Louder rest rest') :
      Louder (dashed (count + 1) :: rest) (dashed (count + more + 1) :: rest')
  | insert {count : Nat} {rest rest' : List String} (louder : Louder rest rest') :
      Louder rest (dashed (count + 1) :: rest')
  | flag {rest rest' : List String} (louder : Louder rest rest') :
      Louder rest ("--verbose" :: rest')

section Letters

theorem toList_dashed (count : Nat) : (dashed count).toList = '-' :: List.replicate count 'v' :=
  String.toList_ofList

theorem letters_dashed (count : Nat) : letters (dashed count) = count := by
  have length : (dashed count).length = count + 1 := by
    rw [← String.length_toList, toList_dashed, List.length_cons, List.length_replicate]
  rw [letters, length, Nat.add_sub_cancel, if_pos rfl, toList_dashed,
    List.count_cons_of_ne (by decide), List.count_replicate_self]

theorem dashed_ne {name : String} (other : name.toList[1]? ≠ some 'v') (count : Nat) :
    dashed (count + 1) ≠ name := by
  rintro rfl
  rw [toList_dashed, List.replicate_succ] at other
  exact other rfl

theorem loudness?_dashed (count : Nat) : loudness? (dashed (count + 1)) = some (count + 1) := by
  rw [loudness?, toList_dashed, List.replicate_succ]
  simp

theorem eq_dashed_of_loudness? {argument : String} {count : Nat}
    (found : loudness? argument = some count) : argument = dashed count := by
  rw [loudness?] at found
  split at found
  · next c rest shape =>
    split at found
    · next all =>
      cases found
      have same : ∀ d ∈ c :: rest, d = 'v' := by simpa using all
      rw [← String.toList_inj, shape, toList_dashed,
        List.eq_replicate_of_mem same, List.length_cons]
    · cases found
  · cases found

theorem letters_of_loudness? {argument : String} {count : Nat}
    (found : loudness? argument = some count) : letters argument = count := by
  rw [eq_dashed_of_loudness? found, letters_dashed]

theorem letters_of_loudness?_none {argument : String} (none : loudness? argument = none) :
    letters argument = 0 := by
  rw [letters]
  split
  · next same =>
    cases count : argument.length - 1 with
    | zero =>
      rw [same, count]
      rfl
    | succ n =>
      rw [same, count, loudness?_dashed] at none
      cases none
  · rfl

end Letters

section Reading
variable {argument : String}

theorem louder_zero {o : Options} (bounded : o.verbosity ≤ 255) : o.louder 0 = o := by
  rw [louder, Nat.add_zero, Nat.min_eq_right bounded]

/-- What reading some arguments does, whatever the options are and whatever follows: they are refused,
or they change the options and are heard so often. -/
def Does (piece : List String) (times : Nat) : Prop :=
  (∃ refusal, ∀ o rest, read o (piece ++ rest) = .error refusal) ∨
  ∃ change : Options → Options,
    (∀ o rest, o.verbosity ≤ 255 → read o (piece ++ rest) = read ((change o).louder times) rest) ∧
    ∀ o verbosity,
      change { o with verbosity := verbosity } = { change o with verbosity := verbosity }

theorem Does.refuses {piece : List String} {times : Nat} {refusal : Refusal}
    (refuses : ∀ o rest, read o (piece ++ rest) = .error refusal) : Does piece times :=
  Or.inl ⟨refusal, refuses⟩

theorem Does.loud {piece : List String} {times : Nat}
    (reads : ∀ o rest, read o (piece ++ rest) = read (o.louder times) rest) : Does piece times :=
  Or.inr ⟨id, fun o rest _ => reads o rest, fun _ _ => rfl⟩

theorem Does.silent {piece : List String} (change : Options → Options)
    (reads : ∀ o rest, read o (piece ++ rest) = read (change o) rest)
    (keeps : ∀ o verbosity,
      change { o with verbosity := verbosity } = { change o with verbosity := verbosity }) :
    Does piece 0 := by
  refine Or.inr ⟨change, fun o rest bounded => ?_, keeps⟩
  have same : change o = { change o with verbosity := o.verbosity } := keeps o o.verbosity
  have quiet : (change o).verbosity ≤ 255 := by
    rw [same]
    exact bounded
  rw [reads, louder_zero quiet]

theorem does_alone (alone : takesOperand argument = false) : Does [argument] (times argument) := by
  have operands : argument ∉ ["-e", "--eval", "-o", "--output"] := of_decide_eq_false alone
  simp only [List.mem_cons, List.not_mem_nil, or_false, not_or] at operands
  obtain ⟨e, eval, output, output'⟩ := operands
  have eval : ¬(argument = "-e" ∨ argument = "--eval") := not_or.mpr ⟨e, eval⟩
  have output : ¬(argument = "-o" ∨ argument = "--output") := not_or.mpr ⟨output, output'⟩
  -- the arguments in the order in which the reader compares with them, then the letters
  by_cases help : argument = "-h" ∨ argument = "--help"
  · exact .refuses fun o rest => by rw [List.singleton_append, read.eq_def]; exact if_pos help
  by_cases repl : argument = "-r" ∨ argument = "--repl"
  · have silent : times argument = 0 := by rcases repl with rfl | rfl <;> decide
    rw [silent]
    refine .silent (fun o => { o with repl := true }) (fun o rest => ?_) fun _ _ => rfl
    rw [List.singleton_append, read.eq_def]
    simp only [help, repl, if_true, if_false]
  by_cases profile : argument = "-p" ∨ argument = "--profile"
  · have silent : times argument = 0 := by rcases profile with rfl | rfl <;> decide
    rw [silent]
    refine .silent (fun o => { o with profile := true }) (fun o rest => ?_) fun _ _ => rfl
    rw [List.singleton_append, read.eq_def]
    simp only [help, repl, profile, if_true, if_false]
  by_cases flag : argument = "--verbose"
  · have once : times argument = 1 := by
      subst flag
      decide
    rw [once]
    refine .loud fun o rest => ?_
    rw [List.singleton_append, read.eq_def]
    simp only [if_neg help, if_neg repl, if_neg profile, if_neg eval, if_neg output, if_pos flag]
  have reads (o : Options) (rest : List String) : read o ([argument] ++ rest) =
      (loudness? argument).elim
        (if argument.toList.head? = some '-' then .error (.unknownOption argument)
          else read { o with path := some argument } rest)
        fun letters => read (o.louder (letters % 256)) rest := by
    rw [List.singleton_append, read.eq_def]
    refine (if_neg help).trans <| (if_neg repl).trans <| (if_neg profile).trans <|
      (if_neg eval).trans <| (if_neg output).trans <| (if_neg flag).trans ?_
    cases loudness? argument <;> rfl
  cases loud : loudness? argument with
  | some count =>
    have heard : times argument = count % 256 := by
      rw [times, letters_of_loudness? loud, if_neg flag, Nat.add_zero]
    rw [heard]
    exact .loud fun o rest => by rw [reads, loud, Option.elim_some]
  | none =>
    have silent : times argument = 0 := by rw [times, letters_of_loudness?_none loud, if_neg flag]
    by_cases unknown : argument.toList.head? = some '-'
    · exact .refuses fun o rest => by rw [reads, loud]; exact if_pos unknown
    · rw [silent]
      refine .silent (fun o => { o with path := some argument }) (fun o rest => ?_)
        fun _ _ => rfl
      rw [reads, loud]
      exact if_neg unknown

theorem does_operand (takes : takesOperand argument = true) (operand : String) :
    Does [argument, operand] 0 := by
  have among : argument ∈ ["-e", "--eval", "-o", "--output"] := of_decide_eq_true takes
  simp only [List.mem_cons, List.not_mem_nil, or_false] at among
  have eval : argument = "-e" ∨ argument = "--eval" → Does [argument, operand] 0 := by
    intro eval
    refine .silent (fun o => { o with inline := some operand }) (fun o rest => ?_)
      fun _ _ => rfl
    rcases eval with rfl | rfl <;> rfl
  have output : argument = "-o" ∨ argument = "--output" → Does [argument, operand] 0 := by
    intro output
    have reads (o : Options) (rest : List String) : read o ([argument, operand] ++ rest) =
        (OutputMode.ofName? operand).elim (.error .noMode)
          fun mode => read { o with mode := mode } rest := by
      rw [List.cons_append, List.singleton_append, read.eq_def]
      dsimp only
      rcases output with rfl | rfl <;> cases OutputMode.ofName? operand <;> rfl
    cases named : OutputMode.ofName? operand with
    | some mode =>
      refine .silent (fun o => { o with mode := mode }) (fun o rest => ?_) fun _ _ => rfl
      rw [reads, named, Option.elim_some]
    | none => exact .refuses fun o rest => by rw [reads, named, Option.elim_none]
  rcases among with e | e | o | o
  · exact eval (Or.inl e)
  · exact eval (Or.inr e)
  · exact output (Or.inl o)
  · exact output (Or.inr o)

theorem refuses_last (takes : takesOperand argument = true) :
    ∃ refusal, ∀ o, read o [argument] = .error refusal := by
  have among : argument ∈ ["-e", "--eval", "-o", "--output"] := of_decide_eq_true takes
  simp only [List.mem_cons, List.not_mem_nil, or_false] at among
  rcases among with rfl | rfl | rfl | rfl
  · exact ⟨.noSource, fun o => rfl⟩
  · exact ⟨.noSource, fun o => rfl⟩
  · exact ⟨.noMode, fun o => rfl⟩
  · exact ⟨.noMode, fun o => rfl⟩

end Reading

section Counting

theorem proper_alone {argument : String} (alone : takesOperand argument = false)
    (rest : List String) : proper (argument :: rest) = argument :: proper rest := by
  cases rest with
  | nil => rfl
  | cons operand rest => rw [proper, alone, if_neg Bool.false_ne_true]

theorem proper_operand {argument : String} (takes : takesOperand argument = true)
    (operand : String) (rest : List String) :
    proper (argument :: operand :: rest) = argument :: proper rest := by
  rw [proper, if_pos takes]

/-- Arguments one by one, each with its operand if it takes one. -/
theorem arguments_induction {motive : List String → Prop} (none : motive [])
    (last : ∀ argument, takesOperand argument = true → motive [argument])
    (operand : ∀ argument operand rest, takesOperand argument = true → motive rest →
      motive (argument :: operand :: rest))
    (alone : ∀ argument rest, takesOperand argument = false → motive rest →
      motive (argument :: rest)) (arguments : List String) : motive arguments := by
  induction arguments using proper.induct with
  | case1 => exact none
  | case2 argument =>
    cases takes : takesOperand argument with
    | true => exact last argument takes
    | false => exact alone argument [] takes none
  | case3 argument next rest takes ih => exact operand argument next rest takes ih
  | case4 argument next rest other ih =>
    exact alone argument (next :: rest) (Bool.eq_false_iff.mpr other) ih

section Total
variable {count : String → Nat} {argument : String} (rest : List String)

theorem total_alone (alone : takesOperand argument = false) :
    total count (argument :: rest) = count argument + total count rest := by
  rw [total, proper_alone alone, List.map_cons, List.sum_cons, total]

theorem total_operand (takes : takesOperand argument = true) (silent : count argument = 0)
    (operand : String) : total count (argument :: operand :: rest) = total count rest := by
  rw [total, proper_operand takes, List.map_cons, List.sum_cons, silent, Nat.zero_add, total]

theorem asked_operand (takes : takesOperand argument = true) : asked argument = 0 := by
  have among : argument ∈ ["-e", "--eval", "-o", "--output"] := of_decide_eq_true takes
  simp only [List.mem_cons, List.not_mem_nil, or_false] at among
  rcases among with rfl | rfl | rfl | rfl <;> decide

theorem times_le_asked (argument : String) : times argument ≤ asked argument :=
  Nat.add_le_add_right (Nat.mod_le ..) _

theorem times_eq_asked {argument : String} :
    times argument = asked argument ↔ letters argument < 256 := by
  rw [times, asked]
  omega

theorem sum_times_le (list : List String) : (list.map times).sum ≤ (list.map asked).sum := by
  induction list with
  | nil => exact Nat.le_refl 0
  | cons argument later ih => exact Nat.add_le_add (times_le_asked argument) ih

theorem total_times_eq {arguments : List String} : total times arguments = total asked arguments ↔
    ∀ argument ∈ proper arguments, letters argument < 256 := by
  rw [total, total]
  generalize proper arguments = list
  induction list with
  | nil => simp
  | cons argument later ih =>
    have first := times_le_asked argument
    have others := sum_times_le later
    have same : (later.map times).sum = (later.map asked).sum ↔
      ∀ argument ∈ later, letters argument < 256 := ih
    rw [List.forall_mem_cons, ← same, ← times_eq_asked, List.map_cons, List.map_cons, List.sum_cons,
      List.sum_cons]
    omega

end Total

section Accepted
variable {piece arguments arguments' : List String} {heard : Nat} {o r : Options}

/-- Where a piece is read without a refusal, the rest is read with options that are louder by it, and
so it is with any other verbosity and any other rest. -/
theorem Does.accepted {rest : List String} (does : Does piece heard) (bounded : o.verbosity ≤ 255)
    (accepted : read o (piece ++ rest) = .ok r) :
    ∃ next : Options, next.verbosity = min 255 (o.verbosity + heard) ∧ read next rest = .ok r ∧
      ∀ verbosity rest', verbosity ≤ 255 →
        read { o with verbosity := verbosity } (piece ++ rest') =
          read { next with verbosity := min 255 (verbosity + heard) } rest' := by
  rcases does with ⟨refusal, refused⟩ | ⟨change, reads, keeps⟩
  · cases (refused o rest).symm.trans accepted
  · have same : change o = { change o with verbosity := o.verbosity } := keeps o o.verbosity
    refine ⟨(change o).louder heard, ?_, (reads o rest bounded).symm.trans accepted, ?_⟩
    · rw [same]
      rfl
    · intro verbosity rest' bounded'
      rw [reads _ _ bounded', keeps]
      rfl

theorem verbosity_read (bounded : o.verbosity ≤ 255) (accepted : read o arguments = .ok r) :
    r.verbosity = min 255 (o.verbosity + total times arguments) := by
  induction arguments using arguments_induction generalizing o with
  | none =>
    cases accepted
    exact (Nat.min_eq_right bounded).symm
  | last argument takes =>
    obtain ⟨refusal, refused⟩ := refuses_last takes
    cases (refused o).symm.trans accepted
  | operand argument operand rest takes ih =>
    obtain ⟨next, sum, later, -⟩ := (does_operand takes operand).accepted bounded accepted
    have silent : times argument = 0 :=
      Nat.le_zero.mp (asked_operand takes ▸ times_le_asked argument)
    rw [ih (by omega) later, total_operand rest takes silent]
    omega
  | alone argument rest alone ih =>
    obtain ⟨next, sum, later, -⟩ := (does_alone alone).accepted bounded accepted
    rw [ih (by omega) later, total_alone rest alone]
    omega

theorem read_dashed (o : Options) (count : Nat) (rest : List String) :
    read o (dashed (count + 1) :: rest) = read (o.louder ((count + 1) % 256)) rest := by
  rw [read.eq_def]
  simp [dashed_ne, loudness?_dashed]

theorem read_flag (o : Options) (rest : List String) :
    read o ("--verbose" :: rest) = read (o.louder 1) rest := by
  rw [read.eq_def]
  rfl

theorem Louder.accepted (louder : Louder arguments arguments') (bounded : o.verbosity ≤ 255)
    (accepted : read o arguments = .ok r) {verbosity : Nat} (bounded' : verbosity ≤ 255) :
    ∃ verbosity', read { o with verbosity := verbosity } arguments' =
      .ok { r with verbosity := verbosity' } := by
  induction louder generalizing o verbosity with
  | done =>
    cases accepted
    exact ⟨verbosity, rfl⟩
  | keep alone _ ih =>
    obtain ⟨next, sum, later, anyhow⟩ := (does_alone alone).accepted bounded accepted
    obtain ⟨verbosity', read⟩ := ih (by omega) later (Nat.min_le_left ..)
    exact ⟨verbosity', (anyhow verbosity _ bounded').trans read⟩
  | keepOperand takes _ ih =>
    obtain ⟨next, sum, later, anyhow⟩ := (does_operand takes _).accepted bounded accepted
    obtain ⟨verbosity', read⟩ := ih (by omega) later (Nat.min_le_left ..)
    exact ⟨verbosity', (anyhow verbosity _ bounded').trans read⟩
  | lengthen _ ih =>
    rw [read_dashed] at accepted ⊢
    exact ih (Nat.min_le_left ..) accepted (Nat.min_le_left ..)
  | insert _ ih =>
    rw [read_dashed]
    exact ih bounded accepted (Nat.min_le_left ..)
  | flag _ ih =>
    rw [read_flag]
    exact ih bounded accepted (Nat.min_le_left ..)

theorem takesOperand_dashed (count : Nat) : takesOperand (dashed (count + 1)) = false := by
  simp [takesOperand, dashed_ne]

theorem asked_dashed (count : Nat) : asked (dashed (count + 1)) = count + 1 := by
  rw [asked, letters_dashed, if_neg (dashed_ne (by decide) count), Nat.add_zero]

theorem Louder.asked_le (louder : Louder arguments arguments') :
    total asked arguments ≤ total asked arguments' := by
  induction louder with
  | done => exact Nat.le_refl _
  | keep alone _ ih =>
    rw [total_alone _ alone, total_alone _ alone]
    exact Nat.add_le_add_left ih _
  | keepOperand takes _ ih =>
    rw [total_operand _ takes (asked_operand takes), total_operand _ takes (asked_operand takes)]
    exact ih
  | lengthen _ ih =>
    rw [total_alone _ (takesOperand_dashed _), total_alone _ (takesOperand_dashed _), asked_dashed,
      asked_dashed]
    omega
  | insert _ ih =>
    rw [total_alone _ (takesOperand_dashed _)]
    omega
  | flag _ ih =>
    rw [total_alone _ (by decide)]
    omega

end Accepted

end Counting

end Options

namespace Level

theorem ofVerbosity_of_le {verbosity : Nat} (more : 3 ≤ verbosity) :
    ofVerbosity verbosity = trace := by
  obtain ⟨further, rfl⟩ := Nat.exists_eq_add_of_le' more
  rfl

theorem detail_ofVerbosity (verbosity : Nat) :
    (ofVerbosity verbosity).detail = 2 + min verbosity 3 := by
  rcases Nat.lt_or_ge verbosity 3 with few | more
  · obtain rfl | rfl | rfl : verbosity = 0 ∨ verbosity = 1 ∨ verbosity = 2 := by omega
    all_goals rfl
  · rw [ofVerbosity_of_le more, Nat.min_eq_right more]
    rfl

end Level

namespace Options
variable {arguments arguments' : List String} {o o' : Options}

theorem verbosity_parse (accepted : parse arguments = .ok o) :
    o.verbosity = min (total times arguments) 255 := by
  have sum : o.verbosity = min 255 (0 + total times arguments) :=
    verbosity_read (Nat.zero_le 255) accepted
  rw [sum, Nat.zero_add, Nat.min_comm]

theorem Louder.detail_le (louder : Louder arguments arguments')
    (accepted : parse arguments = .ok o) (accepted' : parse arguments' = .ok o')
    (short : ∀ argument ∈ proper arguments', letters argument < 256) :
    (Level.choose none o.verbosity).detail ≤ (Level.choose none o'.verbosity).detail := by
  have more : total times arguments ≤ total times arguments' :=
    calc total times arguments
      _ ≤ total asked arguments := sum_times_le _
      _ ≤ total asked arguments' := louder.asked_le
      _ = total times arguments' := (total_times_eq.mpr short).symm
  have sum := verbosity_parse accepted
  have sum' := verbosity_parse accepted'
  change (Level.ofVerbosity o.verbosity).detail ≤ (Level.ofVerbosity o'.verbosity).detail
  rw [Level.detail_ofVerbosity, Level.detail_ofVerbosity]
  omega

/-- The verbosity, for all arguments that are not refused, is the sum of the letters and the flags up to
255, but the letters of each argument count modulo 256. Where no argument has more than 255 letters, the
level is that of the whole sum, and more letters or flags never lower it. -/
theorem verbosity_sums (accepted : parse arguments = .ok o) :
    let volume := total asked arguments
    let level := Level.choose none o.verbosity
    o.verbosity = min (total times arguments) 255 ∧
    (o.verbosity = min volume 255 ↔
      (∀ argument ∈ proper arguments, letters argument < 256) ∨ 255 ≤ total times arguments) ∧
    ((∀ argument ∈ proper arguments, letters argument < 256) →
      (volume = 0 → level = .warn) ∧ (volume = 1 → level = .info) ∧
      (volume = 2 → level = .debug) ∧ (3 ≤ volume → level = .trace)) ∧
    ∀ arguments', Louder arguments arguments' → ∃ o', parse arguments' = .ok o' ∧
      o' = { o with verbosity := o'.verbosity } ∧
      ((∀ argument ∈ proper arguments', letters argument < 256) →
        level.detail ≤ (Level.choose none o'.verbosity).detail) := by
  intro volume level
  have sum : o.verbosity = min (total times arguments) 255 := verbosity_parse accepted
  have heard : total times arguments ≤ volume := sum_times_le _
  refine ⟨sum, ?_, ?_, ?_⟩
  · rw [← total_times_eq, sum]
    omega
  · intro short
    have same : total times arguments = volume := total_times_eq.mpr short
    have levels : level = Level.ofVerbosity (min volume 255) := by
      rw [← same, ← sum]
      rfl
    rw [levels]
    refine ⟨fun zero => ?_, fun one => ?_, fun two => ?_, fun more => ?_⟩
    · rw [zero]
      rfl
    · rw [one]
      rfl
    · rw [two]
      rfl
    · exact Level.ofVerbosity_of_le (by omega)
  · intro arguments' louder
    obtain ⟨verbosity, accepted'⟩ := louder.accepted (Nat.zero_le 255) accepted (Nat.zero_le 255)
    exact ⟨_, accepted', rfl, louder.detail_le accepted accepted'⟩

/-- Letters in two arguments and a flag; the letters of an operand do not count. -/
theorem verbosity_sums_operand :
    let arguments := ["-v", "--verbose", "-e", "-vvvv", "-vv"]
    parse arguments = .ok ⟨4, .text, false, false, some "-vvvv", none⟩ ∧
      total asked arguments = 4 ∧ Level.choose none 4 = .trace := by
  intro arguments
  have accepted : parse arguments = .ok ⟨4, .text, false, false, some "-vvvv", none⟩ := rfl
  have volume : total asked arguments = 4 := by decide
  have short : ∀ argument ∈ proper arguments, letters argument < 256 := by decide
  obtain ⟨-, -, levels, -⟩ := verbosity_sums accepted
  exact ⟨accepted, volume, (levels short).2.2.2 (by rw [volume]; decide)⟩

/-- One letter too many in an argument takes all of them back. -/
theorem letters_wrap :
    let arguments := [dashed 255, "-e", "1"]
    let arguments' := [dashed 256, "-e", "1"]
    let o : Options := ⟨255, .text, false, false, some "1", none⟩
    parse arguments = .ok o ∧ total asked arguments = 255 ∧
      parse arguments' = .ok { o with verbosity := 0 } ∧ total asked arguments' = 256 ∧
      Louder arguments arguments' ∧
      Level.choose none 255 = .trace ∧ Level.choose none 0 = .warn := by
  intro arguments arguments' o
  have parsed (count : Nat) : parse [dashed (count + 1), "-e", "1"] =
      .ok { o with verbosity := min 255 (0 + (count + 1) % 256) } :=
    (read_dashed initial count ["-e", "1"]).trans rfl
  have volume (count : Nat) : total asked [dashed (count + 1), "-e", "1"] = count + 1 := by
    rw [total_alone _ (takesOperand_dashed count), asked_dashed]
    rfl
  have operand : Louder ["-e", "1"] ["-e", "1"] := .keepOperand rfl .done
  have louder : Louder (dashed (254 + 1) :: ["-e", "1"]) (dashed (254 + 1 + 1) :: ["-e", "1"]) :=
    .lengthen operand
  exact ⟨parsed 254, volume 254, parsed 255, volume 255, louder, rfl, rfl⟩

end Options

end DemandLex.CommandLine
