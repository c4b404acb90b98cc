import P11k.Gitstatus.Arguments

/-! What one argument asks of the loop, the panic on a name of several bytes, and the three spellings of a value. -/
namespace P11k.Gitstatus

inductive Ask where
  | stop (result : Option (Except ParseError ParseOutcome))
  | set (f : CliOptions → Except ParseError CliOptions)
  | wait (f : Arg → CliOptions → Except ParseError CliOptions) (missing : ParseError)

def askLong (long : Arg) : Ask :=
  match Text.splitOnce ['='] long with
  | some (name,value) =>
    if longOptTakesValue name then .set fun o => parseLongOpt o name (some value)
    else .stop (some (.error (.badArgs ("option --".toList ++ name ++ " does not take an argument".toList))))
  | none =>
    if longOptTakesValue long then
      .stop (some (.error (.badArgs ("option --".toList ++ long ++ " requires an argument".toList))))
    else .set fun o => parseLongOpt o long none

def askShort (name : Char) (value : Arg) : Ask :=
  if name.utf8Size ≠ 1 then .stop none
  else if value ≠ [] then .set fun o => parseShortOpt o name (some value)
  else if shortOptTakesValue name then
    .wait (fun value o => parseShortOpt o name (some value))
      (.badArgs ("option -".toList ++ [name] ++ " requires an argument".toList))
  else .set fun o => parseShortOpt o name none

def ask (arg : Arg) : Ask :=
  if arg = "-h".toList ∨ arg = "--help".toList then .stop (some (.ok .help))
  else if arg = "-V".toList ∨ arg = "--version".toList then .stop (some (.ok .version))
  else
    match Text.stripPrefix "--".toList arg with
    | some long => askLong long
    | none =>
      match arg with
      | '-' :: name :: value => askShort name value
      | _ => .stop (some (.error (.badArgs ("unexpected positional argument: ".toList ++ arg))))

def andThen (result : Except ParseError CliOptions) (next : CliOptions → Option (Except ParseError ParseOutcome)) :
    Option (Except ParseError ParseOutcome) :=
  match result with
  | .ok o => next o
  | .error e => some (.error e)

def follow (o : CliOptions) (rest : List Arg) : Ask → Option (Except ParseError ParseOutcome)
  | .stop result => result
  | .set f => andThen (f o) fun o => parseLoop o rest
  | .wait f missing =>
      match rest with
      | [] => some (.error missing)
      | value :: rest => andThen (f value o) fun o => parseLoop o rest

theorem followLong (o : CliOptions) (rest : List Arg) (long : Arg) : follow o rest (askLong long) =
    match Text.splitOnce ['='] long with
    | some (name,value) =>
      if longOptTakesValue name then andThen (parseLongOpt o name (some value)) fun o => parseLoop o rest
      else some (.error (.badArgs ("option --".toList ++ name ++ " does not take an argument".toList)))
    | none =>
      if longOptTakesValue long then
        some (.error (.badArgs ("option --".toList ++ long ++ " requires an argument".toList)))
      else andThen (parseLongOpt o long none) fun o => parseLoop o rest := by
  rw [askLong]
  split
  · split <;> rfl
  · split <;> rfl

theorem followShort (o : CliOptions) (rest : List Arg) (name : Char) (value : Arg) :
    follow o rest (askShort name value) =
      if name.utf8Size ≠ 1 then none
      else if value ≠ [] then andThen (parseShortOpt o name (some value)) fun o => parseLoop o rest
      else if shortOptTakesValue name then
        match rest with
        | [] => some (.error (.badArgs ("option -".toList ++ [name] ++ " requires an argument".toList)))
        | value :: rest => andThen (parseShortOpt o name (some value)) fun o => parseLoop o rest
      else andThen (parseShortOpt o name none) fun o => parseLoop o rest := by
  rw [askShort]
  split
  · rfl
  split
  · rfl
  split
  · cases rest <;> rfl
  · rfl

theorem askPositional {arg : Arg} (help : ¬ (arg = "-h".toList ∨ arg = "--help".toList))
    (version : ¬ (arg = "-V".toList ∨ arg = "--version".toList)) (strip : Text.stripPrefix "--".toList arg = none)
    (positional : ∀ name value, arg ≠ '-' :: name :: value) :
    ask arg = .stop (some (.error (.badArgs ("unexpected positional argument: ".toList ++ arg)))) := by
  unfold ask
  rw [if_neg help,if_neg version,strip]
  dsimp only
  split
  · exact absurd rfl (positional _ _)
  · rfl

theorem parseLoopCons (o : CliOptions) (arg : Arg) (rest : List Arg) :
    parseLoop o (arg :: rest) = follow o rest (ask arg) := by
  rw [parseLoop.eq_def]
  dsimp only
  by_cases help : arg = "-h".toList ∨ arg = "--help".toList
  · unfold ask
    rw [if_pos help,if_pos help]
    rfl
  by_cases version : arg = "-V".toList ∨ arg = "--version".toList
  · unfold ask
    rw [if_neg help,if_neg help,if_pos version,if_pos version]
    rfl
  rw [if_neg help,if_neg version]
  cases strip : Text.stripPrefix "--".toList arg with
  | some long =>
    unfold ask
    rw [if_neg help,if_neg version,strip]
    dsimp only
    rw [followLong]
    rfl
  | none =>
    by_cases short : ∃ name value, arg = '-' :: name :: value
    · obtain ⟨name,value,rfl⟩ := short
      unfold ask
      rw [if_neg help,if_neg version,strip]
      change _ = follow o rest (askShort name value)
      rw [followShort]
      cases rest <;> rfl
    · have positional : ∀ name value, arg ≠ '-' :: name :: value := fun name value same => short ⟨name,value,same⟩
      rw [askPositional help version strip positional]
      dsimp only
      split
      · exact absurd rfl (positional _ _)
      · rfl

/-- A short option whose name takes several bytes. -/
def Cut (arg : Arg) : Prop := ∃ name value, arg = '-' :: name :: value ∧ name.utf8Size ≠ 1

theorem askShortArg {name : Char} {value : Arg} (single : name ≠ '-') (plain : value = [] → name ≠ 'h' ∧ name ≠ 'V') :
    ask ('-' :: name :: value) = askShort name value := by
  have notHelp : ¬ ('-' :: name :: value = "-h".toList ∨ '-' :: name :: value = "--help".toList) := by
    rintro (same | same) <;> cases same
    · exact (plain rfl).1 rfl
    · exact single rfl
  have notVersion : ¬ ('-' :: name :: value = "-V".toList ∨ '-' :: name :: value = "--version".toList) := by
    rintro (same | same) <;> cases same
    · exact (plain rfl).2 rfl
    · exact single rfl
  have notLong : Text.stripPrefix "--".toList ('-' :: name :: value) = none := by
    rw [Option.eq_none_iff_forall_ne_some]
    intro long strip
    cases Text.stripPrefixSome.mp strip
    exact single rfl
  unfold ask
  rw [if_neg notHelp,if_neg notVersion,notLong]
  rfl

theorem askLongArg {long : Arg} (plain : long ≠ "help".toList ∧ long ≠ "version".toList) :
    ask ("--".toList ++ long) = askLong long := by
  have notHelp : ¬ ("--".toList ++ long = "-h".toList ∨ "--".toList ++ long = "--help".toList) := by
    rintro (same | same) <;> cases same
    exact plain.1 rfl
  have notVersion : ¬ ("--".toList ++ long = "-V".toList ∨ "--".toList ++ long = "--version".toList) := by
    rintro (same | same) <;> cases same
    exact plain.2 rfl
  unfold ask
  rw [if_neg notHelp,if_neg notVersion,Text.stripPrefixSome.mpr rfl]

theorem askCases (arg : Arg) : (∃ result, ask arg = .stop (some result)) ∨
    (∃ long, arg = "--".toList ++ long ∧ ask arg = askLong long) ∨
    (∃ name value, arg = '-' :: name :: value ∧ ask arg = askShort name value) := by
  unfold ask
  split
  · exact .inl ⟨_,rfl⟩
  split
  · exact .inl ⟨_,rfl⟩
  split
  · rename_i long strip
    exact .inr (.inl ⟨long,Text.stripPrefixSome.mp strip,rfl⟩)
  split
  · exact .inr (.inr ⟨_,_,rfl,rfl⟩)
  · exact .inl ⟨_,rfl⟩

theorem askLongStop {long : Arg} : askLong long ≠ .stop none := by
  rw [askLong]
  split <;> split <;> exact fun same => by cases same

theorem askCut (arg : Arg) : ask arg = .stop none ↔ Cut arg := by
  constructor
  · intro stop
    rcases askCases arg with ⟨result,read⟩ | ⟨long,_,read⟩ | ⟨name,value,rfl,read⟩
    · rw [read] at stop
      cases stop
    · exact absurd (read ▸ stop) askLongStop
    · refine ⟨name,value,rfl,fun single => ?_⟩
      rw [read,askShort,if_neg (not_not.mpr single)] at stop
      split at stop
      · cases stop
      split at stop <;> cases stop
  · rintro ⟨name,value,rfl,several⟩
    have other : ∀ c : Char, c.utf8Size = 1 → name ≠ c := fun c single same => several (same ▸ single)
    rw [askShortArg (other '-' rfl) fun _ => ⟨other 'h' rfl,other 'V' rfl⟩,askShort,if_pos several]

theorem askStops (arg : Arg) (last : CliOptions) : ask arg ≠ .stop (some (.ok (.run last))) := by
  unfold ask askLong askShort
  repeat' split
  all_goals exact fun same => by cases same

/-- Arguments that are read from the first on as options that the tables accept. -/
inductive Accepted : CliOptions → List Arg → CliOptions → Prop where
  | done {o} : Accepted o [] o
  | attached {o next last name value args} (some' : value ≠ []) (read : parseShortOpt o name (some value) = .ok next)
      (rest : Accepted next args last) : Accepted o (('-' :: name :: value) :: args) last
  | apart {o next last name value args} (takes : shortOptTakesValue name = true)
      (read : parseShortOpt o name (some value) = .ok next) (rest : Accepted next args last) :
      Accepted o (['-',name] :: value :: args) last
  | switch {o next last name args} (bare : shortOptTakesValue name = false)
      (read : parseShortOpt o name none = .ok next) (rest : Accepted next args last) :
      Accepted o (['-',name] :: args) last
  | longValue {o next last name value args} (takes : longOptTakesValue name = true) (name' : '=' ∉ name)
      (read : parseLongOpt o name (some value) = .ok next) (rest : Accepted next args last) :
      Accepted o (("--".toList ++ name ++ '=' :: value) :: args) last
  | longSwitch {o next last name args} (bare : longOptTakesValue name = false) (name' : '=' ∉ name)
      (read : parseLongOpt o name none = .ok next) (rest : Accepted next args last) :
      Accepted o (("--".toList ++ name) :: args) last

/-- A name of several bytes stands where an option is read. -/
def CutReached (o : CliOptions) (args : List Arg) : Prop :=
  ∃ front arg rest last, args = front ++ arg :: rest ∧ Accepted o front last ∧ Cut arg

theorem shortKnown {o next : CliOptions} {name : Char} {value : Option Arg}
    (read : parseShortOpt o name value = .ok next) : name.utf8Size = 1 ∧ name ≠ '-' ∧ name ≠ 'h' ∧ name ≠ 'V' := by
  unfold parseShortOpt at read
  dsimp only at read
  split at read
  all_goals first | exact ⟨rfl,by decide,by decide,by decide⟩ | cases read

theorem longKnown {o next : CliOptions} {name : Arg} {value : Option Arg}
    (read : parseLongOpt o name value = .ok next) : name ≠ "help".toList ∧ name ≠ "version".toList := by
  constructor <;> rintro rfl <;> cases read

theorem askLongValue {name value : Arg} (takes : longOptTakesValue name = true) (name' : '=' ∉ name) :
    ask ("--".toList ++ name ++ '=' :: value) = .set fun o => parseLongOpt o name (some value) := by
  have value' : ∀ t : Arg, '=' ∉ t → name ++ '=' :: value ≠ t := fun t free same => free (same ▸ by simp)
  rw [List.append_assoc,askLongArg ⟨value' _ (by decide),value' _ (by decide)⟩,askLong,
    Text.splitOnceSome.mpr ⟨rfl,name'⟩]
  exact if_pos takes

theorem acceptedLoop {o last : CliOptions} {front : List Arg} (accepted : Accepted o front last) (rest : List Arg) :
    parseLoop o (front ++ rest) = parseLoop last rest := by
  induction accepted with
  | done => rfl
  | attached some' read _ ih =>
    obtain ⟨size,single,_,_⟩ := shortKnown read
    rw [List.cons_append,parseLoopCons,askShortArg single (fun none' => absurd none' some'),followShort,
      if_neg (not_not.mpr size),if_pos some',read]
    exact ih
  | apart takes read _ ih =>
    obtain ⟨size,single,plain⟩ := shortKnown read
    rw [List.cons_append,parseLoopCons,askShortArg single (fun _ => plain),followShort,
      if_neg (not_not.mpr size),if_neg (not_not.mpr rfl),if_pos takes,List.cons_append]
    dsimp only
    rw [read]
    exact ih
  | switch bare read _ ih =>
    obtain ⟨size,single,plain⟩ := shortKnown read
    rw [List.cons_append,parseLoopCons,askShortArg single (fun _ => plain),followShort,
      if_neg (not_not.mpr size),if_neg (not_not.mpr rfl),bare,if_neg Bool.false_ne_true,read]
    exact ih
  | longValue takes name' read _ ih =>
    rw [List.cons_append,parseLoopCons,askLongValue takes name',follow,read]
    exact ih
  | longSwitch bare name' read _ ih =>
    rw [List.cons_append,parseLoopCons,askLongArg (longKnown read),followLong,
      Text.splitOnceNone.mpr name']
    dsimp only
    rw [bare,if_neg Bool.false_ne_true,read]
    exact ih

theorem acceptedSet {o next last : CliOptions} {arg : Arg} {args : List Arg}
    {f : CliOptions → Except ParseError CliOptions} (read : ask arg = .set f) (value : f o = .ok next)
    (rest : Accepted next args last) : Accepted o (arg :: args) last := by
  rcases askCases arg with ⟨result,stop⟩ | ⟨long,rfl,same⟩ | ⟨name,v,rfl,same⟩
  · rw [read] at stop
    cases stop
  · rw [read,askLong] at same
    split at same
    · rename_i name v found
      obtain ⟨rfl,name'⟩ := Text.splitOnceSome.mp found
      split at same
      · rename_i takes
        cases same
        rw [← List.append_assoc]
        exact .longValue takes name' value rest
      · cases same
    · rename_i found
      split at same
      · cases same
      · rename_i bare
        cases same
        exact .longSwitch (Bool.eq_false_iff.mpr bare) (Text.splitOnceNone.mp found) value rest
  · rw [read,askShort] at same
    split at same
    · cases same
    split at same
    · rename_i some'
      cases same
      exact .attached some' value rest
    · rename_i none'
      obtain rfl := not_not.mp none'
      split at same
      · cases same
      · rename_i bare
        cases same
        exact .switch (Bool.eq_false_iff.mpr bare) value rest

theorem askWait {arg : Arg} {missing : ParseError} {f : Arg → CliOptions → Except ParseError CliOptions}
    (read : ask arg = .wait f missing) : ∃ name, arg = ['-',name] ∧ shortOptTakesValue name = true ∧
      f = fun value o => parseShortOpt o name (some value) := by
  rcases askCases arg with ⟨result,stop⟩ | ⟨long,rfl,same⟩ | ⟨name,v,rfl,same⟩
  · rw [read] at stop
    cases stop
  · rw [read,askLong] at same
    split at same <;> split at same <;> cases same
  · rw [read,askShort] at same
    split at same
    · cases same
    split at same
    · cases same
    · rename_i none'
      obtain rfl := not_not.mp none'
      split at same
      · rename_i takes
        cases same
        exact ⟨name,rfl,takes,rfl⟩
      · cases same

/-- The rule of the loop: what holds of an end, a stop and an error, and passes from behind an accepted
option to before it, holds of every run. -/
theorem loopInduction {motive : CliOptions → List Arg → Option (Except ParseError ParseOutcome) → Prop}
    (nil : ∀ o, motive o [] (some (.ok (.run o))))
    (stop : ∀ o arg rest result, ask arg = .stop result → motive o (arg :: rest) result)
    (error : ∀ o args e, motive o args (some (.error e)))
    (set : ∀ o next arg rest f, ask arg = .set f → f o = .ok next → motive next rest (parseLoop next rest) →
      motive o (arg :: rest) (parseLoop next rest))
    (wait : ∀ o next name v rest, shortOptTakesValue name = true → parseShortOpt o name (some v) = .ok next →
      motive next rest (parseLoop next rest) → motive o (['-',name] :: v :: rest) (parseLoop next rest))
    (o : CliOptions) (args : List Arg) : motive o args (parseLoop o args) := by
  induction size : args.length using Nat.strong_induction_on generalizing o args with
  | _ n ih =>
    cases args with
    | nil => exact nil o
    | cons arg rest =>
      rw [parseLoopCons]
      cases read : ask arg with
      | stop result => exact stop o arg rest result read
      | set f =>
        rw [follow]
        cases value : f o with
        | ok next =>
          exact set o next arg rest f read value (ih rest.length (by rw [← size]; exact Nat.lt_succ_self _) next rest rfl)
        | error e => exact error o _ e
      | wait f missing =>
        obtain ⟨name,rfl,takes,rfl⟩ := askWait read
        cases rest with
        | nil => exact error o _ missing
        | cons v rest =>
          rw [follow]
          cases value : parseShortOpt o name (some v) with
          | ok next =>
            have shorter : rest.length < n := by
              rw [← size]
              simp only [List.length_cons]
              omega
            exact wait o next name v rest takes value (ih rest.length shorter next rest rfl)
          | error e => exact error o _ e

theorem cutBehind {o next : CliOptions} {front rest : List Arg}
    (step : ∀ {args last}, Accepted next args last → Accepted o (front ++ args) last) (cut : CutReached next rest) :
    CutReached o (front ++ rest) := by
  obtain ⟨args,arg,tail,last,rfl,accepted,several⟩ := cut
  exact ⟨front ++ args,arg,tail,last,(List.append_assoc _ _ _).symm,step accepted,several⟩

theorem loopPanics (o : CliOptions) (args : List Arg) : parseLoop o args = none ↔ CutReached o args := by
  constructor
  · refine @loopInduction (fun o args result => result = none → CutReached o args) ?_ ?_ ?_ ?_ ?_ o args
    · intro o panics
      cases panics
    · intro o arg rest result read panics
      exact ⟨[],arg,rest,o,rfl,.done,(askCut arg).mp (panics ▸ read)⟩
    · intro o args e panics
      cases panics
    · intro o next arg rest f read value later panics
      exact @cutBehind o next [arg] rest (fun accepted => acceptedSet read value accepted) (later panics)
    · intro o next name v rest takes value later panics
      exact @cutBehind o next [['-',name],v] rest (fun accepted => .apart takes value accepted) (later panics)
  · rintro ⟨front,arg,rest,last,rfl,accepted,several⟩
    rw [acceptedLoop accepted,parseLoopCons,(askCut arg).mpr several]
    rfl

theorem loopRuns (o last : CliOptions) (args : List Arg) :
    parseLoop o args = some (.ok (.run last)) ↔ Accepted o args last := by
  constructor
  · refine @loopInduction (fun o args result => result = some (.ok (.run last)) → Accepted o args last)
      ?_ ?_ ?_ ?_ ?_ o args
    · intro o runs
      cases runs
      exact .done
    · intro o arg rest result read runs
      exact absurd (runs ▸ read) (askStops arg last)
    · intro o args e runs
      cases runs
    · intro o next arg rest f read value later runs
      exact acceptedSet read value (later runs)
    · intro o next name v rest takes value later runs
      exact .apart takes value (later runs)
  · intro accepted
    rw [← List.append_nil args,acceptedLoop accepted]
    rfl

/-! The spellings of a value. -/

inductive SameOutcome : Option (Except ParseError ParseOutcome) → Option (Except ParseError ParseOutcome) → Prop where
  | same {a} : SameOutcome a a
  | badArgs {s t} : SameOutcome (some (.error (.badArgs s))) (some (.error (.badArgs t)))
  | versionMismatch {s t} : SameOutcome (some (.error (.versionMismatch s))) (some (.error (.versionMismatch t)))

/-- A dash and then neither a digit nor white space: nothing that an option takes as its value. -/
def Repels (arg : Arg) : Prop :=
  ∃ c rest, arg = '-' :: c :: rest ∧ c.isDigit = false ∧ Text.whiteSpace c = false

theorem repelsDigits {c : Char} (letter : c.isDigit = false) (rest : Arg) : Text.parseDigits (c :: rest) = none := by
  rw [Text.parseDigits,List.all_cons,letter]
  rfl

theorem repelsTrim {arg : Arg} (repels : Repels arg) :
    ∃ c rest, Text.trim arg = '-' :: c :: rest ∧ c.isDigit = false := by
  obtain ⟨c,rest,rfl,letter,solid⟩ := repels
  exact ⟨c,Text.trimEnd rest,by rw [Text.trimCons rfl,Text.trimEndCons solid],letter⟩

theorem repelsInt {arg : Arg} (repels : Repels arg) (low high : Int) :
    Text.parseInt low high (Text.trim arg) = none := by
  obtain ⟨c,rest,trimmed,letter⟩ := repelsTrim repels
  rw [trimmed,Text.parseInt,List.head?_cons,if_pos rfl,List.tail_cons,repelsDigits letter]
  rfl

theorem repelsNat {arg : Arg} (repels : Repels arg) : usize (Text.trim arg) = none := by
  obtain ⟨c,rest,trimmed,_⟩ := repelsTrim repels
  rw [trimmed,usize,Text.parseNat]
  rfl

theorem repelsLevel {arg : Arg} (repels : Repels arg) (opt : Arg) :
    parseLogLevel (some arg) opt = .error (.badArgs ("invalid log level: ".toList ++ arg)) := by
  obtain ⟨c,rest,rfl,_⟩ := repels
  rfl

theorem repelsGlob {arg : Arg} (repels : Repels arg) : versionMatches protocolVersion arg = false := by
  obtain ⟨c,rest,rfl,_⟩ := repels
  rfl

theorem parseIntNone {ι : Type} {read : Arg → Option ι} {v : Arg} (unread : read (Text.trim v) = none) (opt : Arg) :
    parseInt read (some v) opt = .error (.badArgs ("not an integer: ".toList ++ v)) := by
  simp only [parseInt,takeValue,bind,Except.bind,unread]

theorem repelsShort {arg : Arg} (repels : Repels arg) {name : Char} (takes : shortOptTakesValue name = true)
    (o : CliOptions) : parseShortOpt o name (some arg) =
      .error (if name = 'G' then .versionMismatch arg
        else if name = 'v' then .badArgs ("invalid log level: ".toList ++ arg)
        else .badArgs ("not an integer: ".toList ++ arg)) := by
  have int : ∀ low high opt, parseInt (Text.parseInt low high) (some arg) opt =
      .error (.badArgs ("not an integer: ".toList ++ arg)) := fun low high => parseIntNone (repelsInt repels low high)
  have threads : ∀ opt, parseThreads (some arg) opt = .error (.badArgs ("not an integer: ".toList ++ arg)) := by
    intro opt
    rw [parseThreads,parseIntNone (repelsNat repels)]
    rfl
  have glob : ∀ opt, parseGlob (some arg) opt = .error (.versionMismatch arg) := by
    intro opt
    simp only [parseGlob,takeValue,bind,Except.bind,repelsGlob repels,Bool.false_eq_true,if_false]
  simp only [shortOptTakesValue,List.contains_iff_mem] at takes
  have names : name ∈ ['l','p','t','v','r','z','s','u','c','d','m','G'] := takes
  simp only [List.mem_cons,List.not_mem_nil,or_false] at names
  rcases names with rfl | rfl | rfl | rfl | rfl | rfl | rfl | rfl | rfl | rfl | rfl | rfl
  all_goals simp [parseShortOpt,parseLimit,parseSize,i32,i64,int,threads,glob,repelsLevel repels,Except.map]

theorem repelsAlike {a b : Arg} (ra : Repels a) (rb : Repels b) {name : Char} (takes : shortOptTakesValue name = true)
    (o : CliOptions) (f g : CliOptions → Option (Except ParseError ParseOutcome)) :
    SameOutcome (andThen (parseShortOpt o name (some a)) f) (andThen (parseShortOpt o name (some b)) g) := by
  rw [repelsShort ra takes,repelsShort rb takes]
  split
  · exact .versionMismatch
  split
  · exact .badArgs
  · exact .badArgs

/-- Two tails that the loop reads alike stay alike behind any arguments, also where an option before them
takes the first of them as its value. -/
theorem sameBehind {a b : Arg} {xs ys : List Arg} (ra : Repels a) (rb : Repels b)
    (here : ∀ o, parseLoop o (a :: xs) = parseLoop o (b :: ys)) (pre : List Arg) (o : CliOptions) :
    SameOutcome (parseLoop o (pre ++ a :: xs)) (parseLoop o (pre ++ b :: ys)) := by
  induction size : pre.length using Nat.strong_induction_on generalizing o pre with
  | _ n ih =>
    cases pre with
    | nil =>
      rw [List.nil_append,List.nil_append,here]
      exact .same
    | cons arg pre =>
      rw [List.cons_append,List.cons_append,parseLoopCons,parseLoopCons]
      cases read : ask arg with
      | stop result => exact .same
      | set f =>
        rw [follow,follow]
        cases f o with
        | ok next => exact ih pre.length (by rw [← size]; exact Nat.lt_succ_self _) pre next rfl
        | error e => exact .same
      | wait f missing =>
        obtain ⟨name,rfl,takes,rfl⟩ := askWait read
        cases pre with
        | nil => exact repelsAlike ra rb takes o _ _
        | cons v pre =>
          rw [List.cons_append,List.cons_append,follow,follow]
          cases parseShortOpt o name (some v) with
          | ok next =>
            exact ih pre.length (by rw [← size]; simp only [List.length_cons]; omega) pre next rfl
          | error e => exact .same

def valueOptions : List (Char × Arg) :=
  [('l',"lock-fd".toList),('p',"parent-pid".toList),('t',"num-threads".toList),('v',"log-level".toList),
    ('r',"repo-ttl-seconds".toList),('z',"max-commit-summary-length".toList),('s',"max-num-staged".toList),
    ('u',"max-num-unstaged".toList),('c',"max-num-conflicted".toList),('d',"max-num-untracked".toList),
    ('m',"dirty-max-index-size".toList),('G',"version-glob".toList)]

/-- What is asked of each row of the table by the readings of its two names. -/
structure TablesAgree (name : Char) (long : Arg) : Prop where
  takesShort : shortOptTakesValue name = true
  takesLong : longOptTakesValue long = true
  single : name.utf8Size = 1 ∧ name ≠ '-' ∧ name.isDigit = false ∧ Text.whiteSpace name = false
  plain : '=' ∉ long
  alike : ∀ o v, parseShortOpt o name (some v) = parseLongOpt o long (some v)

theorem tablesAgree : ∀ row ∈ valueOptions, TablesAgree row.1 row.2 := by
  simp only [valueOptions,List.forall_mem_cons]
  refine ⟨?_,?_,?_,?_,?_,?_,?_,?_,?_,?_,?_,?_,by simp⟩
  all_goals exact ⟨by decide,by decide,by decide,by decide,fun _ _ => rfl⟩

theorem shortListed (name : Char) : shortOptTakesValue name = true ↔ ∃ long, (name,long) ∈ valueOptions := by
  have listed : shortOptTakesValue name = true ↔ name ∈ valueOptions.map Prod.fst := List.contains_iff_mem
  rw [listed,List.mem_map]
  simp

theorem longListed (long : Arg) : longOptTakesValue long = true ↔ ∃ name, (name,long) ∈ valueOptions := by
  constructor
  · intro takes
    have covered : ∀ l ∈ longValueNames, l ∈ valueOptions.map Prod.snd := by decide
    obtain ⟨⟨name,_⟩,mem,rfl⟩ := List.mem_map.mp (covered long (List.contains_iff_mem.mp takes))
    exact ⟨name,mem⟩
  · rintro ⟨name,mem⟩
    exact (tablesAgree _ mem).takesLong

section spellings
variable {name : Char} {long v : Arg} (agree : TablesAgree name long) (post : List Arg) (o : CliOptions)
include agree

theorem attachedRead (some' : v ≠ []) : parseLoop o (('-' :: name :: v) :: post) =
    andThen (parseShortOpt o name (some v)) fun o => parseLoop o post := by
  obtain ⟨size,single,_⟩ := agree.single
  rw [parseLoopCons,askShortArg single (fun none' => absurd none' some'),followShort,if_neg (not_not.mpr size),
    if_pos some']

theorem longRead : parseLoop o (("--".toList ++ long ++ '=' :: v) :: post) =
    andThen (parseShortOpt o name (some v)) fun o => parseLoop o post := by
  rw [parseLoopCons,askLongValue agree.takesLong agree.plain,follow,agree.alike]

theorem apartRead : parseLoop o (['-',name] :: v :: post) =
    andThen (parseShortOpt o name (some v)) fun o => parseLoop o post := by
  obtain ⟨size,single,_⟩ := agree.single
  have plain : name ≠ 'h' ∧ name ≠ 'V' := by
    constructor <;> rintro rfl <;> exact absurd agree.takesShort (by decide)
  rw [parseLoopCons,askShortArg single (fun _ => plain),followShort,if_neg (not_not.mpr size),
    if_neg (not_not.mpr rfl),if_pos agree.takesShort]

end spellings

/-- The spellings always agree; the parser returns an outcome unless it comes to a name of several bytes. -/
theorem parseArgsOutcomes (args : List Arg) :
    ((parseArgs args).isSome = true ↔ ¬ CutReached defaultOptions args) ∧
    (∀ name, shortOptTakesValue name = true ↔ ∃ long, (name,long) ∈ valueOptions) ∧
    (∀ long, longOptTakesValue long = true ↔ ∃ name, (name,long) ∈ valueOptions) ∧
    ∀ name long, (name,long) ∈ valueOptions → ∀ v, v ≠ [] → ∀ pre post,
      SameOutcome (parseArgs (pre ++ ['-',name] :: v :: post)) (parseArgs (pre ++ ('-' :: name :: v) :: post)) ∧
      SameOutcome (parseArgs (pre ++ ('-' :: name :: v) :: post))
        (parseArgs (pre ++ ("--".toList ++ long ++ '=' :: v) :: post)) := by
  refine ⟨?_,shortListed,longListed,?_⟩
  · rw [parseArgs,← loopPanics,Option.isSome_iff_ne_none]
  · intro name long mem v some' pre post
    have agree := tablesAgree _ mem
    have short : ∀ rest, Repels ('-' :: name :: rest) := fun rest => ⟨name,rest,rfl,agree.single.2.2⟩
    have long' : Repels ("--".toList ++ long ++ '=' :: v) := ⟨'-',long ++ '=' :: v,rfl,rfl,rfl⟩
    constructor
    · exact sameBehind (short []) (short v)
        (fun o => (apartRead agree post o).trans (attachedRead agree post o some').symm) pre _
    · exact sameBehind (short v) long'
        (fun o => (attachedRead agree post o some').trans (longRead agree post o).symm) pre _

/-- Three threads, spelled in three ways behind a dangling `-s`. -/
theorem parseArgsOutcomesThreads : (parseArgs ["-t3".toList]).isSome = true ∧
    SameOutcome (parseArgs ["-s".toList,"-t".toList,"3".toList]) (parseArgs ["-s".toList,"-t3".toList]) ∧
    SameOutcome (parseArgs ["-s".toList,"-t3".toList]) (parseArgs ["-s".toList,"--num-threads=3".toList]) := by
  obtain ⟨total,_,_,_⟩ := parseArgsOutcomes ["-t3".toList]
  obtain ⟨_,_,_,spelled⟩ := parseArgsOutcomes []
  refine ⟨total.mpr fun cut => ?_,spelled 't' "num-threads".toList (by decide) ['3'] (by decide) ["-s".toList] []⟩
  exact absurd ((loopPanics _ _).mpr cut) (by decide)

/-- The argument `-é`. -/
theorem parseArgsPanics : parseArgs ["-é".toList] = none := by decide

end P11k.Gitstatus
