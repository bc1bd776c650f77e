import CloneDetection.Session.Basic

/-!
# Sessions and cancellation

A session is a detection that is set up first and run once. It watches a flag, and a detection whose
flag is raised before it runs is cancelled. Tokens are named handles on flags; several tokens, and
several sessions, may share one flag.

A `Desk` holds the flags, the tokens and the sessions that are waiting, each by name. `Desk.perform`
carries out one `Order` and gives its `Reply`.
-/

namespace CloneDetection

/-- A detection that is set up: its settings, in their ranges, and the number of its flag. -/
structure Session where
  settings : Settings
  flag : Nat

/-- The flags, the tokens on them and the sessions that wait to be run. -/
structure Desk where
  /-- Which flags are raised. -/
  flags : Array Bool := #[]
  tokens : List (String × Nat) := []
  sessions : List (String × Session) := []

/-- What can be asked of a desk. -/
inductive Order
  /-- Makes a token on a new flag. -/
  | newToken (name : String)
  /-- Makes a token on the flag of another. -/
  | shareToken (source name : String)
  /-- Raises the flag of a token. -/
  | cancel (name : String)
  /-- Asks whether the flag of a token is raised. -/
  | isCancelled (name : String)
  /-- Sets up a session with a flag of its own; the settings are none when they cannot be read. -/
  | newSession (name : String) (settings : Option Settings)
  /-- Lets a session watch the flag of a token. -/
  | watch (session token : String)
  /-- Makes a token on the flag that a session watches. -/
  | tokenOf (session name : String)
  /-- Runs a session, which leaves the desk. -/
  | run (session : String) (files : List SourceFile)

/-- Why an order cannot be carried out. -/
inductive OrderError
  | noToken
  | noSession
  | unreadableSettings
  | detection (cause : DetectError)

/-- The answer to an order. -/
inductive Reply
  | done
  | raised (flag : Bool)
  | outcome (outcome : Outcome)
  | failed (cause : OrderError)

namespace Desk

/-- Puts an entry in the place of older ones of its name. -/
def put {α : Type} (name : String) (value : α) (entries : List (String × α)) : List (String × α) :=
  (name, value) :: entries.filter (·.1 != name)

/-- A desk with one more flag, not raised, and the number of that flag. -/
def addFlag (desk : Desk) : Desk × Nat :=
  ({ desk with flags := desk.flags.push false }, desk.flags.size)

/-- Whether a flag is raised. -/
def isRaised (desk : Desk) (flag : Nat) : Bool :=
  desk.flags[flag]?.getD false

/-- The desk with a token on a flag. -/
def putToken (desk : Desk) (name : String) (flag : Nat) : Desk :=
  { desk with tokens := put name flag desk.tokens }

/-- The desk with a session. -/
def putSession (desk : Desk) (name : String) (session : Session) : Desk :=
  { desk with sessions := put name session desk.sessions }

/-- Carries out an order. -/
def perform (desk : Desk) : Order → Desk × Reply
  | .newToken name =>
    let (desk, flag) := desk.addFlag
    (desk.putToken name flag, .done)
  | .shareToken source name =>
    match desk.tokens.lookup source with
    | some flag => (desk.putToken name flag, .done)
    | none => (desk, .failed .noToken)
  | .cancel name =>
    match desk.tokens.lookup name with
    | some flag => ({ desk with flags := desk.flags.setIfInBounds flag true }, .done)
    | none => (desk, .failed .noToken)
  | .isCancelled name =>
    match desk.tokens.lookup name with
    | some flag => (desk, .raised (desk.isRaised flag))
    | none => (desk, .failed .noToken)
  | .newSession name settings =>
    match settings with
    | none => (desk, .failed .unreadableSettings)
    | some settings =>
      match settings.validate with
      | .error e => (desk, .failed (.detection (.invalidConfiguration e)))
      | .ok () =>
        let (desk, flag) := desk.addFlag
        (desk.putSession name ⟨settings, flag⟩, .done)
  | .watch session token =>
    match desk.tokens.lookup token with
    | none => (desk, .failed .noToken)
    | some flag =>
      match desk.sessions.lookup session with
      | none => (desk, .failed .noSession)
      | some s => (desk.putSession session { s with flag }, .done)
  | .tokenOf session name =>
    match desk.sessions.lookup session with
    | none => (desk, .failed .noSession)
    | some s => (desk.putToken name s.flag, .done)
  | .run session files =>
    match desk.sessions.lookup session with
    | none => (desk, .failed .noSession)
    | some s =>
      let desk := { desk with sessions := desk.sessions.filter (·.1 != session) }
      match Detection.run s.settings (desk.isRaised s.flag) files with
      | .ok outcome => (desk, .outcome outcome)
      | .error e => (desk, .failed (.detection e))

/-- Carries out some orders one after the other, after those whose replies are `done`, the last one
first. -/
def performFrom (desk : Desk) (done : List Reply) : List Order → List Reply
  | [] => done.reverse
  | order :: rest =>
    let (desk, reply) := desk.perform order
    performFrom desk (reply :: done) rest

/-- The replies to some orders given to an empty desk. -/
def performAll (orders : List Order) : List Reply :=
  performFrom {} [] orders

end Desk

end CloneDetection
