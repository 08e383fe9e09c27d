import AccessLine.Proofs.Registry.Acts
import Mathlib.Data.Set.Basic

/-!
# What a line builder looks up

A line builder that is made of templates looks up the tokens that these name, and no others. So two
token tables that agree on these names give the same line, and if all of them are registered, it
makes no difference what a token that is not registered would write.
-/
namespace AccessLine

/-- A table that answers for every name. -/
def TokenTable.withDefault (tokens : TokenTable) (other : Evaluator) : TokenTable :=
  ⟨fun name => some ((tokens.get? name).getD other)⟩

theorem TokenTable.get?_withDefault {tokens : TokenTable} {name : String}
    (h : tokens.contains name = true) (other : Evaluator) :
    (tokens.withDefault other).get? name = tokens.get? name := by
  obtain ⟨token, ht⟩ := Option.isSome_iff_exists.mp h
  simp [withDefault, ht]

/-- Whether a line is the same with all tables that agree on some names. -/
def LineFunction.DependsOn (line : LineFunction) (names : Set String) : Prop :=
  ∀ tokens tokens' : TokenTable, (∀ name ∈ names, tokens'.get? name = tokens.get? name) →
    line tokens' = line tokens

theorem LineFunction.dependsOn_univ (line : LineFunction) : line.DependsOn Set.univ := by
  intro tokens tokens' h
  have ht : tokens' = tokens := by
    ext1
    exact funext fun name => h name (Set.mem_univ name)
  rw [ht]

theorem Template.dependsOn_tokenNames (t : Template) :
    LineFunction.DependsOn t.render {name | name ∈ t.tokenNames} := by
  intro tokens tokens' h
  funext request response
  have hnode : ∀ n ∈ t.nodes,
      n.render tokens' request response = n.render tokens request response := by
    intro n hn
    cases n with
    | literal text => rfl
    | token name arg =>
        have hname : name ∈ t.tokenNames := List.mem_filterMap.mpr ⟨_, hn, rfl⟩
        simp only [Node.render, TokenTable.eval, h name hname]
  exact congrArg String.join (List.map_congr_left hnode)

theorem Color.tokenNames_template (c : Color) : (Template.parse c.template).tokenNames =
    ["method", "url", "status", "response-time", "res"] := by
  cases c <;> decide +kernel

namespace LineBuilder

/-- The templates that a line builder writes its lines by, if it does. -/
def templates? : LineBuilder → Option (List Template)
  | .compiled t => some [t]
  | .dev d => some (Color.all.map d.template)
  | .custom _ => none

/-- The names that the templates of a line builder look up. -/
def tokenNames (b : LineBuilder) : List String :=
  b.templates?.elim [] fun ts => ts.flatMap Template.tokenNames

@[simp] theorem templates?_wrote (b : LineBuilder) (response : ResponseView) :
    (b.wrote response).templates? = b.templates? := by
  cases b with
  | compiled | custom => rfl
  | dev d => simp [wrote, templates?]

theorem dependsOn_tokenNames {b : LineBuilder} (h : b.templates?.isSome = true) :
    b.line.DependsOn {name | name ∈ b.tokenNames} := by
  cases b with
  | compiled t =>
      have hn : (compiled t).tokenNames = t.tokenNames := by simp [tokenNames, templates?]
      rw [hn]
      exact t.dependsOn_tokenNames
  | custom line => cases h
  | dev d =>
      intro tokens tokens' ha
      funext request response
      have hc : Color.forStatus response.status? ∈ Color.all := by
        cases Color.forStatus response.status? <;> decide
      have hn : ∀ name ∈ (d.template (Color.forStatus response.status?)).tokenNames,
          name ∈ (dev d).tokenNames := by
        intro name hname
        simp only [tokenNames, templates?, Option.elim_some, List.flatMap_map]
        exact List.mem_flatMap.mpr ⟨_, hc, hname⟩
      have ht := (d.template (Color.forStatus response.status?)).dependsOn_tokenNames tokens tokens'
        fun name hname => ha name (hn name hname)
      simp only [line, render, Dev.render, Dev.variant_eq, ht]

/-- A line builder names registered tokens only. -/
def Supplied (b : LineBuilder) (tokens : TokenTable) : Prop :=
  ∀ name ∈ b.tokenNames, tokens.contains name = true

theorem Supplied.line_withDefault {b : LineBuilder} {tokens : TokenTable} (h : b.Supplied tokens)
    (hb : b.templates?.isSome = true) (other : Evaluator) :
    b.line (tokens.withDefault other) = b.line tokens :=
  dependsOn_tokenNames hb tokens _ fun name hname =>
    TokenTable.get?_withDefault (h name hname) other

end LineBuilder

end AccessLine
