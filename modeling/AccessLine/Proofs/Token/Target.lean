import AccessLine.Proofs.Http.Breaks
import AccessLine.Token.Standard

/-!
# The logged target

The target of a request is logged as it was written, not put together again from its path and its
query. The two texts differ for one kind of URI only: behind an authority a query may follow
without a path, and then the path reads as a slash that the logged text leaves out.
-/
namespace AccessLine

namespace Http

/-- A query was written, and no path before it. -/
def Target.OpensWithQuery (t : Target) : Prop :=
  t.rawPath = "" ∧ t.query.isSome

instance (t : Target) : Decidable t.OpensWithQuery :=
  inferInstanceAs (Decidable (_ ∧ _))

theorem Target.text_of_opensWithQuery {t : Target} (h : t.OpensWithQuery) :
    t.text = Uri.queryText t.query := by
  obtain ⟨hpath, hquery⟩ := h
  obtain ⟨q, hq⟩ := Option.isSome_iff_exists.mp hquery
  simp [text, Uri.queryText, hpath, hq]

theorem Target.text_of_not_opensWithQuery {t : Target} (h : ¬ t.OpensWithQuery) :
    t.text = t.path ++ Uri.queryText t.query := by
  cases hq : t.query with
  | none => simp [text, path, Uri.queryText, hq]
  | some q =>
      have hpath : t.rawPath ≠ "" := fun hpath => h ⟨hpath, by simp [hq]⟩
      simp [text, path, Uri.queryText, hq, hpath, String.append_assoc]

theorem Target.path_ne_empty (t : Target) : t.path ≠ "" := by
  unfold path
  split
  · decide
  · assumption

/-- The two texts differ in length. -/
theorem Target.text_eq_iff (t : Target) :
    t.text = t.path ++ Uri.queryText t.query ↔ ¬ t.OpensWithQuery := by
  constructor
  · intro h hopens
    rw [text_of_opensWithQuery hopens] at h
    have hlength := congrArg String.length h
    rw [String.length_append] at hlength
    exact t.path_ne_empty (String.length_eq_zero_iff.mp (by omega))
  · exact text_of_not_opensWithQuery

/-- The text tells how the path was written, and nothing else that path and query do not. -/
theorem Target.text_eq_text_iff {t u : Target} (hpath : t.path = u.path)
    (hquery : t.query = u.query) :
    t.text = u.text ↔ (t.OpensWithQuery ↔ u.OpensWithQuery) := by
  by_cases ht : t.OpensWithQuery <;> by_cases hu : u.OpensWithQuery
  · simp [ht, hu, text_of_opensWithQuery, hquery]
  · have hne := mt t.text_eq_iff.mp (not_not_intro ht)
    rw [hpath, hquery, ← text_of_not_opensWithQuery hu] at hne
    simp [ht, hu, hne]
  · have hne := mt u.text_eq_iff.mp (not_not_intro hu)
    rw [← hpath, ← hquery, ← text_of_not_opensWithQuery ht] at hne
    simp [ht, hu, Ne.symm hne]
  · simp [ht, hu, text_of_not_opensWithQuery, hpath, hquery]

namespace Uri

/-- The URI is not an authority alone. -/
def HasTarget (u : Uri) : Prop :=
  u.scheme?.isSome ∨ u.host? = none

/-- The path, and the query behind its mark. -/
def pathAndQuery (u : Uri) : String :=
  u.path ++ queryText u.query?

/-- The target opens with its query. -/
def OpensWithQuery (u : Uri) : Prop :=
  ∃ t, u.target? = some t ∧ t.OpensWithQuery

theorem HasTarget.exists_target {u : Uri} (h : u.HasTarget) : ∃ t, u.target? = some t := by
  cases u with
  | origin t => exact ⟨t, rfl⟩
  | authority host => simp [HasTarget, scheme?, host?] at h
  | absolute scheme host t => exact ⟨t, rfl⟩

section Target

variable {u : Uri} {t : Target} (h : u.target? = some t)
include h

theorem logged_of_target : u.logged = t.text := by
  simp [logged, h]

theorem path_of_target : u.path = t.path := by
  simp [path, h]

theorem query?_of_target : u.query? = t.query := by
  simp [query?, h]

theorem opensWithQuery_of_target : u.OpensWithQuery ↔ t.OpensWithQuery := by
  simp [OpensWithQuery, h]

end Target

theorem HasTarget.logged_eq_iff {u : Uri} (h : u.HasTarget) :
    u.logged = u.pathAndQuery ↔ ¬ u.OpensWithQuery := by
  obtain ⟨t, ht⟩ := h.exists_target
  rw [pathAndQuery, logged_of_target ht, path_of_target ht, query?_of_target ht,
    opensWithQuery_of_target ht]
  exact t.text_eq_iff

theorem logged_of_opensWithQuery {u : Uri} (h : u.OpensWithQuery) :
    u.logged = queryText u.query? := by
  obtain ⟨t, ht, hopens⟩ := h
  rw [logged_of_target ht, query?_of_target ht, Target.text_of_opensWithQuery hopens]

theorem HasTarget.logged_eq_logged_iff {u v : Uri} (hu : u.HasTarget) (hv : v.HasTarget)
    (hpath : u.path = v.path) (hquery : u.query? = v.query?) :
    u.logged = v.logged ↔ (u.OpensWithQuery ↔ v.OpensWithQuery) := by
  obtain ⟨t, ht⟩ := hu.exists_target
  obtain ⟨s, hs⟩ := hv.exists_target
  rw [path_of_target ht, path_of_target hs] at hpath
  rw [query?_of_target ht, query?_of_target hs] at hquery
  rw [logged_of_target ht, logged_of_target hs, opensWithQuery_of_target ht,
    opensWithQuery_of_target hs]
  exact Target.text_eq_text_iff hpath hquery

theorem logged_of_host {u : Uri} {host : String} (hscheme : u.scheme? = none)
    (hhost : u.host? = some host) : u.logged = u.text ∧ u.text = host := by
  cases u with
  | origin t => cases hhost
  | authority h =>
      obtain rfl := Option.some.inj hhost
      simp [logged, target?, text, path, query?, queryText]
  | absolute scheme h t => cases hscheme

/-! ### What a text is read into -/

theorem parsePath_slash {cs : List Char} {r : List Char × Option (List Char)}
    (h : parsePath ('/' :: cs) = .ok r) : ∃ p, r.1 = '/' :: p := by
  unfold parsePath at h
  obtain ⟨r', -, rfl⟩ := map_eq_ok h
  exact ⟨r'.1, rfl⟩

theorem not_opensWithQuery_of_parseTarget {cs : List Char} {t : Target}
    (h : parseTarget ('/' :: cs) = .ok t) : ¬ t.OpensWithQuery := by
  rintro ⟨hpath, -⟩
  obtain ⟨r, hr, rfl⟩ := map_eq_ok h
  obtain ⟨p, hp⟩ := parsePath_slash hr
  simp [hp] at hpath

theorem origin_ne_of_parseFull {cs : List Char} {t : Target} : parseFull cs ≠ .ok (.origin t) := by
  intro h
  unfold parseFull at h
  cases hscheme : splitScheme cs with
  | error e => simp [hscheme, bind, Except.bind] at h
  | ok scheme? =>
      cases scheme? with
      | none =>
          cases ha : splitAuthority cs with
          | error e => simp [hscheme, ha, bind, Except.bind] at h
          | ok r =>
              simp only [hscheme, ha, bind, Except.bind] at h
              split at h <;> cases h
      | some scheme =>
          cases ha : splitAuthority scheme.2 with
          | error e => simp [hscheme, ha, bind, Except.bind] at h
          | ok r =>
              simp only [hscheme, ha, bind, Except.bind] at h
              split at h
              · cases h
              · cases ht : parseTarget r.2 <;> simp [ht] at h

/-- A target on its own is written with its path. -/
theorem Read.not_opensWithQuery_origin {t : Target} (h : (origin t).Read) :
    ¬ t.OpensWithQuery := by
  obtain ⟨text, h⟩ := h
  unfold parse at h
  split at h
  · cases h
  · split at h
    · cases h
    · obtain ⟨t', ht', he⟩ := map_eq_ok h
      obtain rfl := origin.inj he
      exact not_opensWithQuery_of_parseTarget ht'
    · obtain rfl := origin.inj (Except.ok.inj h)
      decide
    · rename_i c _ _ _
      cases ha : splitAuthority [c] with
      | error e => simp [ha, bind, Except.bind] at h
      | ok r =>
          simp only [ha, bind, Except.bind] at h
          split at h <;> cases h
    · exact absurd h origin_ne_of_parseFull

theorem Read.scheme_of_opensWithQuery {u : Uri} (h : u.Read) (hopens : u.OpensWithQuery) :
    u.scheme?.isSome := by
  obtain ⟨t, ht, hopens⟩ := hopens
  cases u with
  | origin t' =>
      obtain rfl := Option.some.inj ht
      exact absurd hopens h.not_opensWithQuery_origin
  | authority host => cases ht
  | absolute scheme host t' => rfl

end Uri

end Http

open Http

/-- Whatever the form of the request, the path and the query of its URI are logged, except where a
query was written without a path. Then the slash of the path is missing, so that the text is not the
one of a request with the same path and the same query on their own. Of the URIs that a text writes,
only those with a scheme can be of this kind. An authority alone is logged whole. -/
theorem Evaluator.url_unless_opensWithQuery (request : RequestView) (response : ResponseView)
    (arg : Option String) :
    (request.loggedUri.HasTarget →
      (url request response arg = some request.loggedUri.pathAndQuery ↔
        ¬ request.loggedUri.OpensWithQuery) ∧
      ∀ other : RequestView, other.loggedUri.HasTarget →
        request.loggedUri.path = other.loggedUri.path →
        request.loggedUri.query? = other.loggedUri.query? →
        (url request response arg = url other response arg ↔
          (request.loggedUri.OpensWithQuery ↔ other.loggedUri.OpensWithQuery))) ∧
    (request.loggedUri.OpensWithQuery →
      url request response arg = some (Uri.queryText request.loggedUri.query?) ∧
        (request.loggedUri.Read → request.loggedUri.scheme?.isSome)) ∧
    ∀ host, request.loggedUri.scheme? = none → request.loggedUri.host? = some host →
      url request response arg = some request.loggedUri.text ∧ request.loggedUri.text = host := by
  have hurl (r : RequestView) : url r response arg = some r.loggedUri.logged := rfl
  simp only [hurl, Option.some.injEq]
  refine ⟨fun htarget => ⟨?form, fun other hother hpath hquery => ?forms⟩,
    fun hopens => ⟨?opens, fun hread => ?written⟩, fun host hscheme hhost => ?whole⟩
  case form => exact htarget.logged_eq_iff
  case forms => exact htarget.logged_eq_logged_iff hother hpath hquery
  case opens => exact Uri.logged_of_opensWithQuery hopens
  case written => exact hread.scheme_of_opensWithQuery hopens
  case whole => exact Uri.logged_of_host hscheme hhost

/-- The same path and the same query, behind an authority and on their own. -/
def behindHost : RequestView where
  uri := .absolute "http" "h" ⟨"", some "x"⟩

def onItsOwn : RequestView where
  uri := .origin ⟨"/", some "x"⟩

/-- They are logged differently. -/
theorem Evaluator.url_behindHost_ne :
    Http.Uri.parse "http://h?x" = .ok behindHost.uri ∧ Http.Uri.parse "/?x" = .ok onItsOwn.uri ∧
      behindHost.loggedUri.scheme?.isSome ∧
      behindHost.loggedUri.path = "/" ∧ behindHost.loggedUri.query? = some "x" ∧
      onItsOwn.loggedUri.path = "/" ∧ onItsOwn.loggedUri.query? = some "x" ∧
      url behindHost {} none = some "?x" ∧ url onItsOwn {} none = some "/?x" :=
  ⟨by rfl, by rfl, by decide, by decide, by decide, by decide, by decide, by decide, by decide⟩

end AccessLine
