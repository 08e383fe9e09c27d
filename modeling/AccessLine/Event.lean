import AccessLine.Http.Method
import AccessLine.Http.Uri

/-!
# Diagnostic events

Beside the lines themselves the library reports what it does. An event has a level, the part of the
library it comes from, a message and named fields.
-/
namespace AccessLine

inductive Level
  | debug
  | info
deriving DecidableEq, Repr

def Level.text : Level → String
  | .debug => "DEBUG"
  | .info => "INFO"

inductive Event
  | tokenRegistered (name : String)
  | formatDefined (name : String)
  | formatCompiled (name : String)
  | logReady (format : String) (immediate : Bool)
  | headReady (method : Http.Method) (uri : Http.Uri) (status : Http.Status)
  | droppedEarly (method : Http.Method) (uri : Http.Uri)
  | bodyFailed (method : Http.Method) (uri : Http.Uri)
  | line (text : String)
deriving DecidableEq

namespace Event

def level : Event → Level
  | .line _ => .info
  | _ => .debug

def target : Event → String
  | .tokenRegistered _ | .formatDefined _ | .formatCompiled _ => "morgana::registry"
  | .logReady _ _ | .headReady _ _ _ => "morgana::middleware"
  | .droppedEarly _ _ | .bodyFailed _ _ => "morgana::middleware::body"
  | .line _ => "access_log"

def message : Event → String
  | .tokenRegistered _ => "token registered"
  | .formatDefined _ => "format defined"
  | .formatCompiled _ => "format compiled"
  | .logReady _ _ => "access log ready"
  | .headReady _ _ _ => "response head ready"
  | .droppedEarly _ _ => "response dropped before completion, access line discarded"
  | .bodyFailed _ _ => "response body failed, access line discarded"
  | .line text => text

def boolText (b : Bool) : String :=
  if b then "true" else "false"

def fields : Event → List (String × String)
  | .tokenRegistered name => [("token", name)]
  | .formatDefined name | .formatCompiled name => [("format", name)]
  | .logReady format immediate => [("format", format), ("immediate", boolText immediate)]
  | .headReady method uri status =>
      [("method", method.text), ("uri", uri.text), ("status", status.text)]
  | .droppedEarly method uri | .bodyFailed method uri =>
      [("method", method.text), ("uri", uri.text)]
  | .line _ => []

end Event

end AccessLine
