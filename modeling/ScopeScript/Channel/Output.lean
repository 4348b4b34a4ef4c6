set_option autoImplicit false

namespace ScopeScript

structure Sink where
  written : ByteArray
  limit : Option Nat
  flushFails : Bool

namespace Sink

def unlimited : Sink := ⟨ByteArray.empty, none, false⟩

def fullReason : String := "output full"

def flushReason : String := "flush failed"

def accepts (s : Sink) (text : String) : Bool :=
  match s.limit with
  | none => true
  | some limit => decide (s.written.size + text.utf8ByteSize ≤ limit)

-- What does not fit is cut at the limit, so the bytes written stay a prefix of the whole.
def fitting (s : Sink) (text : String) : ByteArray :=
  match s.limit with
  | none => text.toUTF8
  | some limit => text.toUTF8.extract 0 (limit - s.written.size)

def write (s : Sink) (text : String) : Sink :=
  { s with written := s.written ++ s.fitting text }

end Sink

end ScopeScript
