import ByteMatch.Draft
import ByteMatch.Matcher

/-!
# Commands and answers

What a session can be told to do with the things it has named, and what it answers.
-/

namespace ByteMatch

/-- Where a named automaton comes from. -/
inductive Source (α : Type) where
  /-- The automaton that matches nothing. -/
  | empty
  /-- The automaton of a pattern. -/
  | pattern (pattern : Pattern) (payload : α)
  /-- The union of two named automata. -/
  | union (left right : String)
  /-- A copy of a named automaton. -/
  | copy (automaton : String)
  /-- Hand-made states. -/
  | drafts (drafts : List (NodeDraft α)) (start : Option StateId)
  /-- The current edition of a matcher's automaton. -/
  | current (matcher : String)

/-- What a session can be told to do. -/
inductive Command (α : Type) where
  /-- Names an automaton. -/
  | define (name : String) (source : Source α)
  /-- Names a new context. -/
  | openContext (name : String) (config : Config)
  /-- Names a new matcher. -/
  | openMatcher (name : String)
  /-- Adds a pattern to a matcher. -/
  | addPattern (matcher : String) (pattern : Pattern) (payload : α)
  /-- Adds a named automaton to a matcher. -/
  | addAutomaton (matcher automaton : String)
  /-- Walks values without a context. -/
  | traverse (automaton : String) (values : List Bytes) (incoming : List α)
  /-- Walks values with a context, but without its cache. -/
  | traverseIn (context automaton : String) (values : List Bytes) (incoming : List α)
  /-- Walks values through the cache of a context. -/
  | traverseCached (context automaton : String) (values : List Bytes) (incoming : List α)
  /-- Matches values against the patterns of a matcher. -/
  | matchValues (context matcher : String) (values : List Bytes) (incoming : List α)
  /-- Clears the cache of a context. -/
  | clear (context : String)

/-- What a session answers. -/
inductive Answer (α : Type) where
  /-- A named automaton. -/
  | published (snapshot : Snapshot α)
  /-- A pattern was refused; nothing was named. -/
  | refused (error : PatternError)
  /-- A matcher, and the reason why a pattern was refused, if it was. -/
  | matcher (matcher : Matcher α) (error : Option PatternError)
  /-- A context. -/
  | context (context : Context α)
  /-- The payloads found for each value. -/
  | found (results : List (List α))
  /-- The payloads found for each value, and the state of the cache after it. -/
  | foundIn (results : List (List α × Stats))

end ByteMatch
