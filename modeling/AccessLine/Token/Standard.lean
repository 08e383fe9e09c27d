import AccessLine.Exchange.View
import AccessLine.Table
import AccessLine.Token.Credentials
import AccessLine.Token.ResponseTime

/-!
# Tokens

A token writes one field of a log line. It sees both sides of the exchange and the argument that the
template gives it, and has no value when it has nothing to say. Each of the standard tokens reads
one thing out of the request or the response; `req` and `res` read any header, which their argument
names.
-/
namespace AccessLine

/-- What a token writes, if anything. -/
abbrev Evaluator :=
  RequestView → ResponseView → Option String → Option String

/-- The registered tokens by name. -/
abbrev TokenTable :=
  Table Evaluator

/-- A token that is not registered has no value. -/
def TokenTable.eval (tokens : TokenTable) (name : String) (request : RequestView)
    (response : ResponseView) (arg : Option String) : Option String :=
  (tokens.get? name).bind fun token => token request response arg

namespace Evaluator

def method : Evaluator := fun request _ _ =>
  some request.method.text

/-- The path and the query, without scheme and host, so that the form of the request target does
not show. An authority alone is written whole. -/
def url : Evaluator := fun request _ _ =>
  let uri := request.loggedUri
  some (uri.target?.elim uri.text Http.Target.text)

def httpVersion : Evaluator := fun request _ _ =>
  some request.version.number

def status : Evaluator := fun _ response _ =>
  response.status?.map Http.Status.text

def remoteAddr : Evaluator := fun request _ _ =>
  request.remoteIp.map Net.IpAddress.text

/-- The user of the first credentials, if those are plain text. -/
def remoteUser : Evaluator := fun request _ _ =>
  ((request.headers.get? .authorization).bind Http.HeaderValue.plainText?).bind Credentials.user?

/-- The header's name is misspelt by standard; the right spelling is the second choice. -/
def referrer : Evaluator := fun request _ _ =>
  (request.header? "referer").or (request.header? "referrer")

def userAgent : Evaluator := fun request _ _ =>
  request.header? "user-agent"

/-- There is no time before the response is done. -/
def responseTime : Evaluator := fun request response arg =>
  request.received.bind fun start =>
    response.finished.map fun finish => ResponseTime.between start finish arg

def requestHeader : Evaluator := fun request _ arg =>
  arg.bind request.header?

def responseHeader : Evaluator := fun _ response arg =>
  arg.bind response.header?

end Evaluator

namespace TokenTable

/-- The standard tokens under their names. -/
def standardEntries : List (String × Evaluator) :=
  [("method", Evaluator.method),
   ("url", Evaluator.url),
   ("http-version", Evaluator.httpVersion),
   ("status", Evaluator.status),
   ("remote-addr", Evaluator.remoteAddr),
   ("remote-user", Evaluator.remoteUser),
   ("referrer", Evaluator.referrer),
   ("user-agent", Evaluator.userAgent),
   ("response-time", Evaluator.responseTime),
   ("req", Evaluator.requestHeader),
   ("res", Evaluator.responseHeader)]

def standard : TokenTable :=
  standardEntries.foldl (fun t e => t.insert e.1 e.2) ∅

end TokenTable

end AccessLine
