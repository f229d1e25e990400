import PatternLoom.Text.Digit

/-! Command lines as lists of words: switches, which start with a dash and may take a value,
and words that stand for themselves. Every word is classed before the first one is acted
on. -/

namespace PatternLoom

/-- Why a command line was not accepted: it asks for help, or it is not well formed. -/
inductive Rejection where
  | help
  | misuse
  deriving DecidableEq

/-- What a switch does to what is known so far. A value may not be one that it takes. -/
inductive Effect (σ : Type) where
  | flag (set : σ → σ)
  | value (set : String → σ → Option σ)
  | help

structure Switch (σ : Type) where
  names : List String
  effect : Effect σ

/-- Whether a word is a number below zero, which is a value and no switch. The end of a line
may follow it. -/
def isNegativeNumeral (word : List Char) : Bool :=
  let isDigit := fun c => (decimalDigit? c).isSome
  let ends := fun cs => cs = [] || cs = ['\n']
  match word with
  | '-' :: cs =>
    match cs.dropWhile isDigit with
    | '.' :: ds => ds.head?.any isDigit && ends (ds.dropWhile isDigit)
    | rest => cs.head?.any isDigit && ends rest
  | _ => false

/-- Whether a word that is no switch can stand for itself. -/
def isPlainWord (word : String) : Bool :=
  match word.toList with
  | [] => true
  | ['-'] => true
  | '-' :: cs => isNegativeNumeral ('-' :: cs) || cs.contains ' '
  | _ => true

/-- What is attached to the name of a switch in the same word. -/
inductive Attached where
  | nothing
  | afterEquals (text : List Char)
  | afterLetter (text : List Char)

/-- A switch as it is used in a word, and whether by a name of one letter. -/
structure Use (σ : Type) where
  effect : Effect σ
  lettered : Bool
  attached : Attached

inductive WordClass (σ : Type) where
  | plain
  /-- The mark after which all words are plain. -/
  | mark
  | switch (use : Use σ)
  /-- A switch that there is not. -/
  | unknown

def findNamed {σ : Type} (switches : List (Switch σ)) (name : List Char) : Option (Effect σ) :=
  (switches.find? (·.names.contains (String.ofList name))).map Switch.effect

def isLettered (name : List Char) : Bool := (name.drop 1).head? ≠ some '-'

def splitEquals (word : List Char) : List Char × Attached :=
  match word.dropWhile (· ≠ '=') with
  | [] => (word, .nothing)
  | _ :: text => (word.takeWhile (· ≠ '='), .afterEquals text)

/-- The effects of the switches of which one name starts like that. -/
def findAbbreviated {σ : Type} (switches : List (Switch σ)) (start : List Char) :
    List (Effect σ) :=
  switches.flatMap fun s =>
    (s.names.filter fun name => start.isPrefixOf name.toList).map fun _ => s.effect

/-- Every switch that a word with a dash in front can stand for, when it is not the name of
one: a long name may be cut short, and a letter may have its value right behind it. -/
def candidates {σ : Type} (switches : List (Switch σ)) (word : List Char) : List (Use σ) :=
  if isLettered word then
    ((findNamed switches (word.take 2)).map (⟨·, true, .afterLetter (word.drop 2)⟩)).toList
  else
    let (start, attached) := splitEquals word
    (findAbbreviated switches start).map (⟨·, false, attached⟩)

/-- The class of a word before the mark. A word that could be one of several switches is
refused. -/
def classOf {σ : Type} (switches : List (Switch σ)) (word : String) :
    Except Rejection (WordClass σ) :=
  let cs := word.toList
  match cs with
  | '-' :: _ :: _ =>
    let (name, attached) := splitEquals cs
    match findNamed switches cs, findNamed switches name with
    | some effect, _ => .ok (.switch ⟨effect, isLettered cs, .nothing⟩)
    | none, some effect => .ok (.switch ⟨effect, isLettered name, attached⟩)
    | none, none =>
      match candidates switches cs with
      | [use] => .ok (.switch use)
      | [] => .ok (if isPlainWord word then .plain else .unknown)
      | _ => .error .misuse
  | _ => .ok .plain

def classify {σ : Type} (switches : List (Switch σ)) :
    List String → Except Rejection (List (String × WordClass σ))
  | [] => .ok []
  | word :: words =>
    if word = "--" then .ok ((word, .mark) :: words.map (·, .plain))
    else do
      let c ← classOf switches word
      return (word, c) :: (← classify switches words)

/-- One thing that a word with a switch does. -/
inductive Action (σ : Type) where
  | set (f : σ → σ)
  | take (f : String → σ → Option σ) (value : String)
  | help

/-- All that a word with a switch does. It may still want the next word for a value, and its
end may have no meaning. -/
structure Deed (σ : Type) where
  actions : List (Action σ)
  wants : Option (String → σ → Option σ) := none
  spare : Bool := false

namespace Deed

def before {σ : Type} (action : Action σ) (d : Deed σ) : Deed σ :=
  { d with actions := action :: d.actions }

def single {σ : Type} : Effect σ → Deed σ
  | .flag f => ⟨[.set f], none, false⟩
  | .value f => ⟨[], some f, false⟩
  | .help => ⟨[.help], none, false⟩

/-- A letter with text behind it, which is its value if it takes one. Otherwise the next
letter is a switch of its own. -/
def cluster {σ : Type} (switches : List (Switch σ)) (effect : Effect σ) (equals : Bool) :
    List Char → Except Rejection (Deed σ)
  | [] =>
    match effect with
    | .value f => .ok ⟨[.take f ""], none, false⟩
    | _ => .error .misuse
  | c :: cs =>
    let goOn := fun (action : Action σ) =>
      if equals || c = '-' then .error .misuse
      else
        match findNamed switches ['-', c] with
        | none => .ok ⟨[action], none, true⟩
        | some next => do
          let deed ← match cs with
            | [] => pure (single next)
            | '=' :: text => cluster switches next true text
            | text => cluster switches next false text
          return deed.before action
    match effect with
    | .value f => .ok ⟨[.take f (String.ofList (c :: cs))], none, false⟩
    | .flag f => goOn (.set f)
    | .help => goOn .help

end Deed

def Use.deed {σ : Type} (switches : List (Switch σ)) (use : Use σ) : Except Rejection (Deed σ) :=
  match use.attached, use.lettered, use.effect with
  | .nothing, _, effect => .ok (.single effect)
  | .afterEquals text, true, effect => Deed.cluster switches effect true text
  | .afterLetter text, _, effect => Deed.cluster switches effect false text
  | .afterEquals text, false, .value f => .ok ⟨[.take f (String.ofList text)], none, false⟩
  | .afterEquals _, false, _ => .error .misuse

def Action.run {σ : Type} (state : σ) : Action σ → Except Rejection σ
  | set f => .ok (f state)
  | take f value =>
    match f value state with
    | some state => .ok state
    | none => .error .misuse
  | help => .error .help

def runActions {σ : Type} (state : σ) (actions : List (Action σ)) : Except Rejection σ :=
  actions.foldlM Action.run state

/-- What the words that stand for themselves are for: for nothing, for one thing that may be
required, or for a command, to which all later words belong. -/
inductive Place (σ : Type) where
  | closed
  | single (required : Bool) (set : String → σ → σ)
  | command (read : String → List String → σ → Except Rejection σ)

/-- What is known part way through a command line, and whether there were words without a
place. -/
structure Reading (σ : Type) where
  state : σ
  place : Place σ
  spare : Bool := false

namespace Reading

/-- Reads classed words to their end. Words without a place are passed over, so that a later
word can still ask for help. -/
def words {σ : Type} (switches : List (Switch σ)) (r : Reading σ) :
    List (String × WordClass σ) → Except Rejection (Reading σ)
  | [] => .ok r
  | (_, .unknown) :: rest => words switches { r with spare := true } rest
  | (_, .switch use) :: rest => do
    let deed ← use.deed switches
    let spare := r.spare || deed.spare
    match deed.wants, rest with
    | none, rest =>
      words switches { r with state := ← runActions r.state deed.actions, spare := spare } rest
    | some f, (value, .plain) :: rest =>
      let state ← runActions r.state (deed.actions ++ [.take f value])
      words switches { r with state := state, spare := spare } rest
    | some _, _ => .error .misuse
  | (word, .plain) :: rest =>
    match r.place with
    | .closed => words switches { r with spare := true } rest
    | .single _ set =>
      let r := { r with state := set word r.state, place := .closed }
      match rest with
      | (_, .mark) :: rest => words switches r rest
      | rest => words switches r rest
    | .command read => do
      return { r with state := ← read word (rest.map (·.1)) r.state, place := .closed }
  | (word, .mark) :: rest =>
    match r.place, rest with
    | .single _ set, (value, _) :: rest =>
      words switches { r with state := set value r.state, place := .closed } rest
    | .single false _, [] => .ok r
    | .command read, rest => do
      return { r with state := ← read word (rest.map (·.1)) r.state, place := .closed }
    | _, rest => words switches { r with spare := true } rest

/-- What has been read, if nothing is missing and nothing left over. -/
def finish {σ : Type} (r : Reading σ) : Except Rejection σ :=
  match r.place with
  | .command _ | .single true _ => .error .misuse
  | _ => if r.spare then .error .misuse else .ok r.state

end Reading

def readWords {σ : Type} (switches : List (Switch σ)) (place : Place σ) (state : σ)
    (words : List String) : Except Rejection σ := do
  (← Reading.words switches ⟨state, place, false⟩ (← classify switches words)).finish

end PatternLoom
