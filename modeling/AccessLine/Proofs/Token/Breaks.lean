import AccessLine.Proofs.Exchange.Clock
import AccessLine.Proofs.Http.Breaks
import AccessLine.Proofs.Registry.Lookups
import AccessLine.Proofs.Template.Printing

/-!
# Lines without line breaks

A template on one line and the standard tokens make one line of an exchange, with one exception: the
user name is decoded from the credentials, and it can hold any character but a colon.
-/
namespace AccessLine

open Text

namespace Net

theorem hasBreak_decimal (n : Nat) : hasBreak (decimal n) = false :=
  hasBreak_ofList_eq_false_iff.mpr fun _ hc => isBreak_of_mem_toDigits (by decide) hc

theorem hasBreak_hexadecimal (n : Nat) : hasBreak (hexadecimal n) = false :=
  hasBreak_ofList_eq_false_iff.mpr fun _ hc => isBreak_of_mem_toDigits (by decide) hc

theorem Ipv4.hasBreak_text (ip : Ipv4) : hasBreak ip.text = false := by
  apply hasBreak_intercalate (by decide)
  intro t ht
  obtain ⟨o, -, rfl⟩ := List.mem_map.mp ht
  exact hasBreak_decimal _

theorem hasBreak_groupsText (groups : List UInt16) : hasBreak (groupsText groups) = false := by
  apply hasBreak_intercalate (by decide)
  intro t ht
  obtain ⟨g, -, rfl⟩ := List.mem_map.mp ht
  exact hasBreak_hexadecimal _

theorem IpAddress.hasBreak_text (ip : IpAddress) : hasBreak ip.text = false := by
  have hgap : hasBreak "::" = false := by decide
  have hmapped : hasBreak "::ffff:" = false := by decide
  cases ip with
  | v4 ip => exact ip.hasBreak_text
  | v6 ip =>
      simp only [text, Ipv6.text]
      split
      · rename_i v4 _
        simp [hmapped, v4.hasBreak_text]
      · split
        · exact hasBreak_groupsText _
        · simp [hgap, hasBreak_groupsText]

end Net

namespace Number

theorem isBreak_of_mem_fixedPoint {n places : Nat} {c : Char} (h : c ∈ fixedPoint n places) :
    isBreak c = false := by
  have hdigits {m : Nat} (h : c ∈ digits m) : isBreak c = false :=
    isBreak_of_mem_toDigits (by decide) h
  unfold fixedPoint at h
  split at h
  · exact hdigits h
  · simp only [List.mem_append, List.mem_cons, List.mem_replicate] at h
    obtain h | rfl | ⟨-, rfl⟩ | h := h
    · exact hdigits h
    · decide
    · decide
    · exact hdigits h

theorem Binary64.hasBreak_toPlaces (x : Binary64) (places : Nat) :
    hasBreak (x.toPlaces places) = false := by
  rw [toPlaces, hasBreak_ofList_eq_false_iff]
  intro c hc
  split at hc
  · obtain rfl | hc := List.mem_cons.mp hc
    · decide
    · exact isBreak_of_mem_fixedPoint hc
  · exact isBreak_of_mem_fixedPoint hc

theorem hasBreak_infiniteText (negative : Bool) : hasBreak (infiniteText negative) = false := by
  cases negative <;> decide

end Number

theorem ResponseTime.hasBreak_text (value : Number.Binary64) (places : Nat) :
    hasBreak (text value places) = false := by
  unfold text
  split
  · exact Number.Binary64.hasBreak_toPlaces _ _
  · dsimp only
    split
    · exact Number.Binary64.hasBreak_toPlaces _ _
    · exact Number.hasBreak_infiniteText _

/-- The URIs of a request were read from texts. -/
structure Request.UrisRead (request : Request) : Prop where
  uri : request.uri.Read
  clientUri : ∀ uri, request.clientUri = some uri → uri.Read

theorem Request.UrisRead.hasBreak_logged {request : Request} (h : request.UrisRead) :
    hasBreak request.loggedUri.logged = false := by
  unfold loggedUri
  cases hc : request.clientUri with
  | none => exact h.uri.hasBreak_logged
  | some uri => exact (h.clientUri uri hc).hasBreak_logged

theorem RequestView.hasBreak_header {request : RequestView} {name text : String}
    (h : request.header? name = some text) : hasBreak text = false :=
  Http.Headers.hasBreak_of_joined h

theorem ResponseView.hasBreak_header {response : ResponseView} {name text : String}
    (h : response.header? name = some text) : hasBreak text = false := by
  obtain ⟨head, -, h⟩ := Option.bind_eq_some_iff.mp h
  exact Http.Headers.hasBreak_of_joined h

/-- What a token writes is on one line. -/
def Evaluator.Unbroken (token : Evaluator) (request : RequestView) (response : ResponseView) :
    Prop :=
  ∀ arg text, token request response arg = some text → hasBreak text = false

theorem Evaluator.unbroken_of_standard {request : RequestView}
    (hr : request.UrisRead) (response : ResponseView) {name : String} {token : Evaluator}
    (hn : name ≠ "remote-user") (h : TokenTable.standard.get? name = some token) :
    token.Unbroken request response := by
  have hall : ∀ e ∈ TokenTable.standardEntries,
      e.1 = "remote-user" ∨ e.2.Unbroken request response := by
    simp only [TokenTable.standardEntries, List.forall_mem_cons]
    refine ⟨.inr ?method, .inr ?url, .inr ?version, .inr ?status, .inr ?address, .inl trivial,
      .inr ?referrer, .inr ?agent, .inr ?time, .inr ?request, .inr ?response, List.forall_mem_nil _⟩
    case method =>
      rintro arg text ⟨⟩
      exact request.method.hasBreak_text
    case url =>
      rintro arg text ⟨⟩
      exact hr.hasBreak_logged
    case version =>
      rintro arg text ⟨⟩
      exact request.version.hasBreak_number
    case status =>
      intro arg text ht
      obtain ⟨status, -, rfl⟩ := Option.map_eq_some_iff.mp ht
      exact status.hasBreak_text
    case address =>
      intro arg text ht
      obtain ⟨ip, -, rfl⟩ := Option.map_eq_some_iff.mp ht
      exact ip.hasBreak_text
    case referrer =>
      intro arg text ht
      obtain ht | ⟨-, ht⟩ := Option.or_eq_some_iff.mp ht
      · exact RequestView.hasBreak_header ht
      · exact RequestView.hasBreak_header ht
    case agent =>
      intro arg text ht
      exact RequestView.hasBreak_header ht
    case time =>
      intro arg text ht
      obtain ⟨start, -, ht⟩ := Option.bind_eq_some_iff.mp ht
      obtain ⟨finish, -, rfl⟩ := Option.map_eq_some_iff.mp ht
      exact ResponseTime.hasBreak_text _ _
    case request =>
      intro arg text ht
      obtain ⟨name, -, ht⟩ := Option.bind_eq_some_iff.mp ht
      exact RequestView.hasBreak_header ht
    case response =>
      intro arg text ht
      obtain ⟨name, -, ht⟩ := Option.bind_eq_some_iff.mp ht
      exact ResponseView.hasBreak_header ht
  obtain h | h := Table.mem_of_get?_foldl_insert h
  · exact (hall _ h).resolve_left hn
  · cases h

theorem hasBreak_fieldText (value? : Option String) :
    hasBreak (fieldText value?) = value?.any hasBreak := by
  have hdash : hasBreak noValue = false := by decide
  cases value? with
  | none => exact hdash
  | some value =>
      by_cases hv : value = ""
      · subst hv
        exact hdash
      · simp [fieldText, hv]

section Render

variable {request : RequestView} (hr : request.UrisRead) (response : ResponseView)
include hr

/-- The user name is the only field that can break a line. -/
theorem Node.hasBreak_render_iff {n : Node} (hn : hasBreak n.text = false) :
    hasBreak (n.render .standard request response) = true ↔
      n.tokenName? = some "remote-user" ∧
        ∃ user, Evaluator.remoteUser request response none = some user ∧ hasBreak user = true := by
  cases n with
  | literal text =>
      have htext : hasBreak text = false := hn
      simp [render, tokenName?, htext]
  | token name arg =>
      simp only [render, tokenName?, hasBreak_fieldText, Option.any_eq_true, Option.some.injEq,
        TokenTable.eval]
      by_cases hname : name = "remote-user"
      · subst hname
        have huser : TokenTable.standard.get? "remote-user" = some Evaluator.remoteUser := rfl
        simp only [huser, Option.bind_some, true_and]
        rfl
      · simp only [hname, false_and, iff_false, not_exists, not_and]
        intro text htext
        obtain ⟨token, ht, htext⟩ := Option.bind_eq_some_iff.mp htext
        simp [Evaluator.unbroken_of_standard hr response hname ht arg text htext]

theorem Template.hasBreak_render_iff {src : String} (hs : hasBreak src = false) :
    hasBreak ((parse src).render .standard request response) = true ↔
      "remote-user" ∈ (parse src).tokenNames ∧
        ∃ user, Evaluator.remoteUser request response none = some user ∧ hasBreak user = true := by
  have htext : ∀ n ∈ (parse src).nodes, hasBreak n.text = false := by
    have hprint : hasBreak (unparse (parse src).nodes) = false := by rw [unparse_parse, hs]
    simpa [unparse] using hprint
  simp only [render, hasBreak_join, List.any_map, List.any_eq_true, Function.comp_apply]
  constructor
  · rintro ⟨n, hn, hb⟩
    obtain ⟨hname, huser⟩ := (Node.hasBreak_render_iff hr response (htext n hn)).mp hb
    exact ⟨List.mem_filterMap.mpr ⟨n, hn, hname⟩, huser⟩
  · rintro ⟨hname, huser⟩
    obtain ⟨n, hn, hname⟩ := List.mem_filterMap.mp hname
    exact ⟨n, hn, (Node.hasBreak_render_iff hr response (htext n hn)).mpr ⟨hname, huser⟩⟩

end Render

theorem Color.hasBreak_template (c : Color) : hasBreak c.template = false := by
  have hescape (c : Color) : hasBreak c.escape = false := by
    have hopen : hasBreak "\x1b[" = false := by decide
    have hclose : hasBreak "m" = false := by decide
    have hcode : hasBreak (String.ofList (Nat.toDigits 10 c.code)) = false :=
      hasBreak_ofList_eq_false_iff.mpr fun _ hc => isBreak_of_mem_toDigits (by decide) hc
    simp only [escape, hasBreak_append, hopen, hcode, hclose, Bool.or_false]
  have hfields : hasBreak ":method :url " = false ∧ hasBreak ":status " = false ∧
      hasBreak ":response-time ms - :res[content-length]" = false := by decide
  simp only [template, hasBreak_append, hescape, hfields, Bool.or_false]

/-- Of all that a client sends, the user name alone can break the line of an exchange. With a
template on one line and the standard tokens, a line holds a line break exactly if the template has
the token of the user name and the user name of the credentials holds one. The colored line never
does, whichever variants it has compiled before. -/
theorem broken_only_by_user {request : RequestView} (hr : request.UrisRead)
    (response : ResponseView) :
    (∀ src, hasBreak src = false →
      (hasBreak ((Template.parse src).render .standard request response) = true ↔
        "remote-user" ∈ (Template.parse src).tokenNames ∧
          ∃ user, Evaluator.remoteUser request response none = some user ∧
            hasBreak user = true)) ∧
      ∀ cs : List Color,
        hasBreak ((cs.foldl (fun d c => (d.variant c).2) ({} : Dev)).render .standard request
          response).1 = false := by
  constructor
  · exact fun src hs => Template.hasBreak_render_iff hr response hs
  · intro cs
    generalize hd : cs.foldl (fun d c => (d.variant c).2) ({} : Dev) = d
    have htemplate (c : Color) : d.template c = Template.parse c.template := by
      rw [← hd, Dev.template_foldl_variant, Dev.template_empty]
    have hcolor := Template.hasBreak_render_iff hr response
      (Color.forStatus response.status?).hasBreak_template
    simp only [Dev.render, Dev.variant_eq, htemplate]
    rw [← Bool.not_eq_true, hcolor]
    rintro ⟨hname, -⟩
    rw [Color.tokenNames_template] at hname
    exact absurd hname (by decide)

/-- A request whose credentials hold a line feed in the user name. -/
def forgedRequest : RequestView where
  headers := ⟨[(.authorization, ⟨Utf8.encode "Basic YQpiOmM=", by decide +kernel⟩)]⟩

theorem urisRead_forgedRequest : forgedRequest.UrisRead where
  uri := ⟨"/", by rfl⟩
  clientUri _ h := nomatch h

/-- Its line is two. -/
theorem forged_line :
    forgedRequest.UrisRead ∧ hasBreak ":remote-user" = false ∧
      (Template.parse ":remote-user").render .standard forgedRequest {} = "a\nb" :=
  ⟨urisRead_forgedRequest, by decide, by decide +kernel⟩

theorem broken_only_by_user_short :
    forgedRequest.UrisRead ∧ hasBreak Registry.shortTemplate = false ∧
      hasBreak ((Template.parse Registry.shortTemplate).render .standard forgedRequest {}) =
        true :=
  ⟨urisRead_forgedRequest, by decide +kernel,
    ((broken_only_by_user urisRead_forgedRequest {}).1 _ (by decide +kernel)).mpr
      ⟨by decide +kernel, "a\nb", by decide +kernel, by decide⟩⟩

end AccessLine
