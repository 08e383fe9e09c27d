import AccessLine.Proofs.Exchange.Clock
import AccessLine.Proofs.Token.RemoteUser
import AccessLine.Template.Compile
import AccessLine.Template.Parser

/-!
# Passwords stay out of the log

Only the token of the user name reads the credentials, and the token `req` if its argument names
their header. The first sees the user name alone, so that two requests that differ in the password
have the same line.
-/
namespace AccessLine

open Text Http

namespace Http.Headers
variable {front : List (HeaderName × HeaderValue)} {n : HeaderName}

/-- A field counts for its own name only. -/
theorem getAll_middle {m : HeaderName} (hn : n ≠ m) (v w : HeaderValue)
    (back : List (HeaderName × HeaderValue)) :
    (⟨front ++ (m, v) :: back⟩ : Headers).getAll n =
      (⟨front ++ (m, w) :: back⟩ : Headers).getAll n := by
  simp [getAll, hn.symm]

theorem joined?_middle {m : HeaderName} {name : String}
    (hn : foldCase name.toList ≠ m.text.toList) (v w : HeaderValue)
    (back : List (HeaderName × HeaderValue)) :
    (⟨front ++ (m, v) :: back⟩ : Headers).joined? name =
      (⟨front ++ (m, w) :: back⟩ : Headers).joined? name := by
  unfold joined?
  cases hname : HeaderName.ofString? name with
  | none => rfl
  | some n =>
      have hne : n ≠ m := by
        rintro rfl
        rw [HeaderName.text_of_ofString? hname, String.toList_ofList] at hn
        exact hn rfl
      simp only [getAll_middle hne v w back]

end Http.Headers

/-- The template has the token `req` for the header, named in any letter case. -/
def Template.RequestsHeader (t : Template) (name : HeaderName) : Prop :=
  ∃ arg, .token "req" (some arg) ∈ t.nodes ∧ foldCase arg.toList = name.text.toList

section Noninterference
variable (r : RequestView) (response : ResponseView) {front : List (HeaderName × HeaderValue)}
  (back : List (HeaderName × HeaderValue)) {v w : HeaderValue}

/-- Of the standard tokens two read the credentials: the user name, and a header that an argument
names. -/
theorem Evaluator.eq_of_standard {name : String} {token : Evaluator}
    (h : TokenTable.standard.get? name = some token)
    (huser : v.plainText?.bind Credentials.user? = w.plainText?.bind Credentials.user?)
    (hfront : ∀ f ∈ front, f.1 ≠ .authorization) {arg : Option String}
    (harg : name = "req" → ∀ a, arg = some a →
      foldCase a.toList ≠ HeaderName.authorization.text.toList) :
    token (r.withCredentials front back v) response arg =
      token (r.withCredentials front back w) response arg := by
  have hheader {name : String} (hn : foldCase name.toList ≠ HeaderName.authorization.text.toList) :
      (r.withCredentials front back v).header? name =
        (r.withCredentials front back w).header? name :=
    Headers.joined?_middle hn v w back
  have hall : ∀ e ∈ TokenTable.standardEntries, e.1 = name →
      e.2 (r.withCredentials front back v) response arg =
        e.2 (r.withCredentials front back w) response arg := by
    simp only [TokenTable.standardEntries, List.forall_mem_cons]
    refine ⟨?method, ?url, ?version, ?status, ?address, ?user, ?referrer, ?agent, ?time, ?request,
      ?response, List.forall_mem_nil _⟩
    case user =>
      intro _
      simp only [remoteUser, RequestView.withCredentials, Headers.get?_middle hfront,
        Option.bind_some, huser]
    case referrer =>
      intro _
      simp only [referrer]
      rw [hheader (by decide), hheader (by decide)]
    case agent =>
      intro _
      simp only [userAgent]
      rw [hheader (by decide)]
    case request =>
      intro hname
      cases arg with
      | none => rfl
      | some a => simp only [requestHeader, Option.bind_some, hheader (harg hname.symm a rfl)]
    all_goals exact fun _ => rfl
  obtain h | h := Table.mem_of_get?_foldl_insert h
  · exact hall _ h rfl
  · cases h

/-- No password shows in a line. Two requests that differ in the first value of their credentials
only, and there in the password and in the way of writing, have the same line, unless the template
asks for the very header. -/
theorem Template.render_password {t : Template} (ht : ¬t.RequestsHeader .authorization)
    (hfront : ∀ f ∈ front, f.1 ≠ .authorization) {user password₁ password₂ : String}
    (hv : v.WritesCredentials user password₁) (hw : w.WritesCredentials user password₂) :
    t.render .standard (r.withCredentials front back v) response =
      t.render .standard (r.withCredentials front back w) response := by
  have huser := hv.user?.trans hw.user?.symm
  have hnode : ∀ n ∈ t.nodes, n.render .standard (r.withCredentials front back v) response =
      n.render .standard (r.withCredentials front back w) response := by
    intro n hn
    cases n with
    | literal text => rfl
    | token name arg =>
        have harg : name = "req" → ∀ a, arg = some a →
            foldCase a.toList ≠ HeaderName.authorization.text.toList := by
          rintro rfl a rfl ha
          exact ht ⟨a, hn, ha⟩
        cases htoken : TokenTable.standard.get? name with
        | none => simp [Node.render, TokenTable.eval, htoken]
        | some token =>
            simp only [Node.render, TokenTable.eval, htoken, Option.bind_some,
              Evaluator.eq_of_standard r response back htoken huser hfront harg]
  simp only [render, List.map_congr_left hnode]

end Noninterference

/-- A password in the standard alphabet, with padding. -/
def paddedCredentials : HeaderValue :=
  ⟨Utf8.encode "basic YTo/Pg==", by decide +kernel⟩

/-- A longer password in the alphabet that is safe in URLs, without padding. -/
def bareCredentials : HeaderValue :=
  ⟨Utf8.encode "basic YTo_Pz4-Pg", by decide +kernel⟩

theorem writesCredentials_padded : paddedCredentials.WritesCredentials "a" "?>" :=
  ⟨_, rfl, Credentials.writes_of_symbols "YTo/Pg==".toList 2 (by decide) (by decide +kernel)
    (by decide +kernel)⟩

theorem writesCredentials_bare : bareCredentials.WritesCredentials "a" "??>>>" :=
  ⟨_, rfl, Credentials.writes_of_symbols "YTo_Pz4-Pg".toList 0 (by decide) (by decide +kernel)
    (by decide +kernel)⟩

theorem render_password_padded_bare :
    let t := Template.parse ":remote-user :req[host]"
    ¬t.RequestsHeader .authorization ∧ paddedCredentials.WritesCredentials "a" "?>" ∧
      bareCredentials.WritesCredentials "a" "??>>>" ∧
        t.render .standard (RequestView.withCredentials {} [] [] paddedCredentials) {} =
          t.render .standard (RequestView.withCredentials {} [] [] bareCredentials) {} := by
  have hnodes : (Template.parse ":remote-user :req[host]").nodes =
      [.token "remote-user" none, .literal " ", .token "req" (some "host")] := by decide +kernel
  have hrequests : ¬(Template.parse ":remote-user :req[host]").RequestsHeader .authorization := by
    rintro ⟨arg, hmem, hfold⟩
    obtain rfl : arg = "host" := by simpa [hnodes] using hmem
    exact absurd hfold (by decide)
  exact ⟨hrequests, writesCredentials_padded, writesCredentials_bare,
    Template.render_password {} {} [] hrequests (List.forall_mem_nil _) writesCredentials_padded
      writesCredentials_bare⟩

end AccessLine
