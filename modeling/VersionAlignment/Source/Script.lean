import VersionAlignment.Source.Session

/-!
# Scripted services

A `Script` stands for the services and the clock: the answers are given one after the other, and
the last of them again and again. Every request that arrives is written down.
-/

set_option autoImplicit false

namespace VersionAlignment

/-- Answers to come, and what has arrived so far. -/
structure Script where
  /-- Do requests arrive at all? -/
  isReachable : Bool
  /-- The answers to requests for access tokens. -/
  tokenAnswers : List Answer
  /-- The answers to all other requests. -/
  listAnswers : List Answer
  /-- What the clock shows, reading after reading. -/
  clock : List Int
  /-- The requests that have arrived, first to last. -/
  arrived : List Query
  deriving Repr, DecidableEq

namespace Script

/-- The next member of a list of which the last one repeats, and what is left. -/
def next {α : Type} (default : α) : List α → α × List α
  | [] => (default, [])
  | [last] => (last, [last])
  | a :: b :: more => (a, b :: more)

/-- The answer of a service that has none prepared. -/
def noAnswer : Answer := ⟨404, ""⟩

/-- Does the request ask for an access token? -/
def isForToken (q : Query) : Bool := "/identity/token".toList.isSuffixOf q.address.path.text.toList

/-- Send a request. -/
def send (q : Query) (s : Script) : Except NetworkFailure Answer × Script :=
  if !s.isReachable then (.error (.offline q.address), s)
  else if isForToken q then
    let (a, more) := next noAnswer s.tokenAnswers
    (.ok a, { s with tokenAnswers := more, arrived := s.arrived ++ [q] })
  else
    let (a, more) := next noAnswer s.listAnswers
    (.ok a, { s with listAnswers := more, arrived := s.arrived ++ [q] })

/-- Read the clock. -/
def readClock (s : Script) : Int × Script :=
  let (now, more) := next 0 s.clock
  (now, { s with clock := more })

/-- The services as a transport. -/
def transport : Transport (StateM Script) where
  now := readClock
  send := send

end Script

end VersionAlignment
