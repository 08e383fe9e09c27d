import AccessLine.Proofs.Registry.Lookups
import AccessLine.Proofs.Session.Holding

/-!
# Line builders find their tokens

A template is checked once, when it is compiled, and it is used for lines as long as anyone holds
it. Tokens are replaced in between but never taken away, so what was registered at the check is
registered whenever a line is written. The variants of a colored line are never checked; they name
standard tokens only.
-/
namespace AccessLine

namespace LineBuilder

@[simp] theorem tokenNames_wrote (b : LineBuilder) (response : ResponseView) :
    (b.wrote response).tokenNames = b.tokenNames := by
  simp [tokenNames]

theorem Supplied.mono {b : LineBuilder} {tokens tokens' : TokenTable} (h : b.Supplied tokens)
    (ht : ∀ name, tokens.contains name = true → tokens'.contains name = true) :
    b.Supplied tokens' :=
  fun name hn => ht name (h name hn)

theorem supplied_dev : (dev {}).Supplied .standard := by
  intro name hn
  obtain ⟨t, ht, hname⟩ := List.mem_flatMap.mp hn
  obtain ⟨c, -, rfl⟩ := List.mem_map.mp ht
  have hstandard : ∀ name ∈ ["method", "url", "status", "response-time", "res"],
      TokenTable.standard.contains name = true := by decide +kernel
  rw [Dev.template_empty, c.tokenNames_template] at hname
  exact hstandard name hname

theorem supplied_compiled {src : String} {tokens : TokenTable} {t : Template}
    (h : Template.compile src tokens = .ok t) : (compiled t).Supplied tokens := by
  obtain ⟨rfl, hk⟩ := Template.compile_eq_ok_iff.mp h
  simpa [Supplied, tokenNames, templates?] using hk

end LineBuilder

namespace Registry

theorem hasToken_act {r : Registry} {name : String} (h : r.hasToken name = true)
    (a : RegistryAct) : (r.act a).hasToken name = true := by
  rw [hasToken, tokens_act]
  cases a.registered? with
  | none => exact h
  | some e =>
      have hc : r.tokens.contains name = true := h
      simp [Table.contains_insert, hc]

theorem hasToken_empty_act {r : Registry} (h : r.hasToken "" = false) (a : RegistryAct) :
    (r.act a).hasToken "" = false := by
  rw [hasToken, tokens_act]
  cases a with
  | token name t =>
      by_cases hn : name = ""
      · simp only [RegistryAct.registered?, hn, if_true, Option.elim_none]
        exact h
      · have hc : (r.tokens.insert name t).contains "" = false :=
          (Table.contains_insert_of_ne (Ne.symm hn)).trans h
        simpa [RegistryAct.registered?, hn] using hc
  | format | ask => exact h

/-- The standard tokens are there, every line builder finds its tokens, and nothing has the empty
name. -/
structure Supplied (r : Registry) : Prop where
  standard : ∀ name, TokenTable.standard.contains name = true → r.hasToken name = true
  builders : ∀ b ∈ r.builders, b.Supplied r.tokens
  token : r.hasToken "" = false
  format : r.hasFormat "" = false

theorem Supplied.writes {r r' : Registry} (h : r.Supplied) (hw : r.Writes r') : r'.Supplied := by
  obtain ⟨ht, hf, -⟩ := hw.sameLines
  refine ⟨?_, ?_, ?_, ?_⟩
  · simpa only [hasToken, ht] using h.standard
  · intro b hb
    have hnames : b.tokenNames ∈ r.builders.map LineBuilder.tokenNames := by
      rw [← hw.map_builders LineBuilder.tokenNames_wrote]
      exact List.mem_map_of_mem hb
    obtain ⟨b', hb', he⟩ := List.mem_map.mp hnames
    have hs := h.builders b' hb'
    rwa [LineBuilder.Supplied, he, ← ht] at hs
  · simpa only [hasToken, ht] using h.token
  · simpa only [hasFormat, hf] using h.format

theorem hasFormat_empty_act {r : Registry} (h : r.hasFormat "" = false) (a : RegistryAct) :
    (r.act a).hasFormat "" = false := by
  have hnone : r.formats.get? "" = none := by simpa [hasFormat, Table.contains] using h
  have hdefined : a.defined? ≠ some "" := by
    cases a with
    | format name d => by_cases hn : name = "" <;> simp [RegistryAct.defined?, hn]
    | token | ask => simp [RegistryAct.defined?]
  have hkept : (r.act a).formats.get? "" = r.formats.get? "" :=
    get?_formats_act hdefined (by simp [hnone])
  simp [hasFormat, Table.contains, hkept, hnone]

/-- A line builder that an act makes finds its tokens. -/
theorem Supplied.of_mem_act {r : Registry} (h : r.Supplied) {a : RegistryAct} {b : LineBuilder}
    (hb : b ∈ (r.act a).builders) : b.Supplied (r.act a).tokens := by
  have hm := r.makes_act a
  generalize r.act a = r' at hm hb ⊢
  cases hm with
  | same | template => exact h.builders b hb
  | token named =>
      refine (h.builders b hb).mono fun name hn => ?_
      simp [Table.contains_insert, hn]
  | ready named made =>
      obtain hb | hb := List.mem_append.mp hb
      · exact h.builders b hb
      · obtain rfl := List.mem_singleton.mp hb
        obtain ⟨-, rfl⟩ | ⟨line, -, rfl⟩ := made
        · exact LineBuilder.supplied_dev.mono h.standard
        · exact List.forall_mem_nil _
  | compiled entry known | literal entry known =>
      obtain hb | hb := List.mem_append.mp hb
      · exact h.builders b hb
      · obtain rfl := List.mem_singleton.mp hb
        exact LineBuilder.supplied_compiled known

theorem Supplied.act {r : Registry} (h : r.Supplied) (a : RegistryAct) : (r.act a).Supplied where
  standard name hn := hasToken_act (h.standard name hn) a
  builders _ hb := h.of_mem_act hb
  token := hasToken_empty_act h.token a
  format := hasFormat_empty_act h.format a

theorem Supplied.of_standard : Registry.standard.Supplied :=
  invariant_standard (fun _ a hr => hr.act a)
    ⟨fun _ hn => hn, List.forall_mem_nil _, by decide +kernel, rfl⟩

end Registry

namespace Session

theorem supplied_run (l : Schedule) : (run {} l).2.registry.Supplied :=
  invariant_run (fun _ a hr => hr.act a) (fun _ _ hw hr => hr.writes hw) l .of_standard

theorem hasToken_run (l : Schedule) {s : Session} {name : String}
    (h : s.registry.hasToken name = true) : (s.run l).2.registry.hasToken name = true :=
  invariant_run (P := fun r => r.hasToken name = true) (fun _ a hr => Registry.hasToken_act hr a)
    (fun _ _ hw hr => by rwa [Registry.hasToken, hw.sameLines.tokens]) l h

/-- The line builders that a run has handed out: kept under a name, used by a log, or obtained in
one of the steps. -/
inductive HandedOut (l : Schedule) (id : BuilderId) : Prop
  | kept {name : String} (h : (run {} l).2.registry.formats.get? name = some (.builder id))
  | held {log : AccessLog} (h : (run {} l).2.Holds log) (hb : log.builder = id)
  | obtained {before after : Schedule} {now : Timestamp} {x : SessionStep} {text : String}
      (hl : l = before ++ (now, x) :: after) (h : (run {} before).2.obtained? x = some (text, id))

theorem HandedOut.lt_length {l : Schedule} {id : BuilderId} (h : HandedOut l id) :
    id < (run {} l).2.registry.builders.length := by
  obtain h | ⟨h, rfl⟩ | ⟨rfl, h⟩ := h
  · exact (distinct_run l).bound h
  · exact (numbered_run l).builder h
  · rename_i before after now x text
    have hlt := (entry_of_obtained (distinct_run before) h now).1
    rw [run_append, run_cons]
    exact Nat.lt_of_lt_of_le hlt (length_builders_run after _)

/-- A format that names an unknown token fails when it is resolved, and never afterwards. Whatever
has handed out a line builder, at that time and at any later one the line builder is made of the
same templates, and these name registered tokens only: its lines are the same whatever a token
that is not registered would write. The names of the registered tokens never become fewer, and no
token and no format has the empty name. -/
theorem lookups_registered (l more : Schedule) :
    let r := (run {} l).2.registry
    let r' := (run {} (l ++ more)).2.registry
    (∀ id, HandedOut l id → ∃ b b', r.builders[id]? = some b ∧ r'.builders[id]? = some b' ∧
        b'.templates? = b.templates? ∧
        (∀ ts, b'.templates? = some ts →
          (∀ t ∈ ts, ∀ name ∈ t.tokenNames, r'.hasToken name = true) ∧
          ∀ other request response,
            ({ r' with tokens := r'.tokens.withDefault other }.render id request response).1 =
              (r'.render id request response).1)) ∧
      (∀ name, r.hasToken name = true → r'.hasToken name = true) ∧
      r.hasToken "" = false ∧ r.hasFormat "" = false := by
  intro r r'
  have hlater : r' = ((run {} l).2.run more).2.registry := by simp only [r', run_append]
  have hs : r.Supplied := supplied_run l
  have hs' : r'.Supplied := supplied_run (l ++ more)
  refine ⟨?handed, ?names, hs.token, hs.format⟩
  case handed =>
    intro id hid
    have hlt : id < r.builders.length := hid.lt_length
    have hb : r.builders[id]? = some r.builders[id] := List.getElem?_eq_getElem hlt
    have hmap : r.builders.map LineBuilder.templates? <+: r'.builders.map LineBuilder.templates? :=
      hlater ▸ map_builders_run LineBuilder.templates?_wrote more _
    obtain ⟨b', hb', ht⟩ : ∃ b', r'.builders[id]? = some b' ∧
        b'.templates? = r.builders[id].templates? := by
      have hkept := List.prefix_iff_getElem?.mp hmap id (by simpa using hlt)
      simpa using hkept
    refine ⟨_, b', hb, hb', ht, fun ts hts => ⟨?_, fun other request response => ?_⟩⟩
    · intro t hmem name hname
      refine hs'.builders b' (List.mem_of_getElem? hb') name ?_
      simpa [LineBuilder.tokenNames, hts] using ⟨t, hmem, hname⟩
    · have hline := (hs'.builders b' (List.mem_of_getElem? hb')).line_withDefault
        (Option.isSome_of_eq_some hts) other
      simp [Registry.render_eq, Registry.lines, hb', hline]
  case names =>
    intro name hn
    rw [hlater]
    exact hasToken_run more hn

end Session

end AccessLine
