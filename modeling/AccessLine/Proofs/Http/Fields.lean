import AccessLine.Http.Malformed
import AccessLine.Proofs.Text.Utf8
import AccessLine.Token.Standard
import Mathlib.Data.List.NodupEquivFin
import Mathlib.Data.String.Basic

/-!
# Looking up header fields

A lookup by name finds the values of all fields of that name, in whatever letter case each is
written, in their order and joined into one text. So it depends on nothing but the fields of that
name: not on the letter case of any, and not on where fields of other names stand.
-/
namespace AccessLine.Http

open Text

/-! ### Letter case -/

theorem utf8Size_toLower (c : Char) : c.toLower.utf8Size = c.utf8Size := by
  unfold Char.toLower
  split
  · rename_i h
    have hhigh : c.val.toNat ≤ 90 := UInt32.le_iff_toNat_le.mp h.2
    have hsum : (c.val + ('a'.val - 'A'.val)).toNat = c.val.toNat + 32 := by
      rw [UInt32.toNat_add]
      exact Nat.mod_eq_of_lt (show c.val.toNat + 32 < 2 ^ 32 by omega)
    have hone {v : UInt32} (hv : v.toNat ≤ 127) : v ≤ UInt32.ofNatLT 0x7F (by decide) :=
      UInt32.le_iff_toNat_le.mpr hv
    unfold Char.utf8Size
    have hlower : (c.val + ('a'.val - 'A'.val)).toNat ≤ 127 := by omega
    rw [if_pos (hone (show c.val.toNat ≤ 127 by omega)), if_pos (hone hlower)]
  · rfl

/-- A text has as many bytes as it has in lower case. -/
theorem utf8ByteSize_foldCase (text : String) :
    (String.ofList (foldCase text.toList)).utf8ByteSize = text.utf8ByteSize := by
  have hlen : ∀ cs : List Char, String.utf8Len (foldCase cs) = String.utf8Len cs := by
    intro cs
    induction cs with
    | nil => rfl
    | cons c cs ih =>
        have htail : String.utf8Len (cs.map Char.toLower) = String.utf8Len cs := ih
        simp [foldCase, htail, utf8Size_toLower]
  have htext := String.utf8ByteSize_ofList text.toList
  rw [String.ofList_toList] at htext
  rw [String.utf8ByteSize_ofList, hlen, htext]

/-- Whether two texts are the same in lower case. -/
def SameFolded (text text' : String) : Prop :=
  foldCase text.toList = foldCase text'.toList

instance (text text' : String) : Decidable (SameFolded text text') :=
  inferInstanceAs (Decidable (_ = _))

theorem SameFolded.ofString?_eq {text text' : String} (h : SameFolded text text') :
    HeaderName.ofString? text = HeaderName.ofString? text' := by
  have hfold : foldCase text.toList = foldCase text'.toList := h
  have hsize : text.utf8ByteSize = text'.utf8ByteSize := by
    rw [← utf8ByteSize_foldCase, ← utf8ByteSize_foldCase text', hfold]
  simp only [HeaderName.ofString?, hsize, hfold]

/-- Texts that write names write the same name if they are the same in lower case. -/
theorem eq_iff_sameFolded {text text' : String} {n n' : HeaderName}
    (h : HeaderName.ofString? text = some n) (h' : HeaderName.ofString? text' = some n') :
    n = n' ↔ SameFolded text text' := by
  rw [HeaderName.ext_iff, HeaderName.text_of_ofString? h, HeaderName.text_of_ofString? h',
    String.ofList_inj, SameFolded]

/-! ### Fields as they are written -/

/-- A header field as it is written. -/
structure Field where
  name : String
  value : List UInt8
deriving DecidableEq

namespace Field

variable {fields fields' : List Field} {h : Headers}

/-- The field as it is kept. -/
def read? (f : Field) : Option (HeaderName × HeaderValue) :=
  (HeaderName.ofString? f.name).bind fun n => (HeaderValue.ofBytes? f.value).map (n, ·)

theorem read?_eq_some_iff {f : Field} {n : HeaderName} {v : HeaderValue} :
    f.read? = some (n, v) ↔ HeaderName.ofString? f.name = some n ∧ v.bytes = f.value := by
  have hvalue : HeaderValue.ofBytes? f.value = some v ↔ v.bytes = f.value := by
    unfold HeaderValue.ofBytes?
    constructor
    · intro h
      split at h
      · rw [← Option.some.inj h]
      · cases h
    · intro h
      rw [← h, dif_pos v.all_valueByte]
  unfold read?
  cases HeaderName.ofString? f.name with
  | none => simp
  | some m => simp [hvalue, and_comm]

/-- The fields with a name, in whatever letter case. -/
def named (fields : List Field) (name : String) : List Field :=
  fields.filter fun f => SameFolded f.name name

/-- The headers that fields make when they are appended in their order. -/
def readAll (fields : List Field) : Except Malformed Headers :=
  readHeaders ∅ (fields.map fun f => (Utf8.encode f.name, f.value))

theorem readHeaders_cons (h : Headers) (f : Field) (rest : List (List UInt8 × List UInt8)) :
    (∃ e, f.read? = some e ∧ readHeaders h ((Utf8.encode f.name, f.value) :: rest) =
        readHeaders (h.append e.1 e.2) rest) ∨
      (f.read? = none ∧ ∃ e, readHeaders h ((Utf8.encode f.name, f.value) :: rest) = .error e) := by
  have hbytes : HeaderName.ofBytes? (Utf8.encode f.name) = HeaderName.ofString? f.name := by
    rw [HeaderName.ofBytes?, Utf8.decode?_encode, Option.bind_some]
  rw [readHeaders, hbytes, read?]
  cases HeaderName.ofString? f.name with
  | none => exact .inr ⟨rfl, _, rfl⟩
  | some n =>
      cases HeaderValue.ofBytes? f.value with
      | none => exact .inr ⟨rfl, _, rfl⟩
      | some v => exact .inl ⟨_, rfl, rfl⟩

theorem readHeaders_eq_ok_iff {h h' : Headers} :
    readHeaders h (fields.map fun f => (Utf8.encode f.name, f.value)) = .ok h' ↔
      ∃ kept, fields.map read? = kept.map some ∧ h' = ⟨h.fields ++ kept⟩ := by
  induction fields generalizing h with
  | nil =>
      constructor
      · rintro ⟨⟩
        exact ⟨[], rfl, by rw [List.append_nil]⟩
      · rintro ⟨kept, hkept, rfl⟩
        obtain rfl := List.map_eq_nil_iff.mp hkept.symm
        rw [List.append_nil]
        rfl
  | cons f fields ih =>
      rw [List.map_cons]
      obtain ⟨e, hread, hstep⟩ | ⟨hread, err, hstep⟩ :=
        readHeaders_cons h f (fields.map fun f => (Utf8.encode f.name, f.value))
      · rw [hstep, ih]
        constructor
        · rintro ⟨kept, hkept, rfl⟩
          exact ⟨e :: kept, by rw [List.map_cons, hread, hkept, List.map_cons],
            by simp [Headers.append]⟩
        · rintro ⟨kept, hkept, rfl⟩
          cases kept with
          | nil => cases hkept
          | cons e' kept =>
              obtain ⟨hfirst, hrest⟩ := List.cons.inj hkept
              obtain rfl := Option.some.inj (hread.symm.trans hfirst)
              exact ⟨kept, hrest, by simp [Headers.append]⟩
      · rw [hstep]
        constructor
        · rintro ⟨⟩
        · rintro ⟨kept, hkept, -⟩
          cases kept with
          | nil => cases hkept
          | cons e kept =>
              rw [List.map_cons, hread] at hkept
              cases hkept

/-- Fields are read one by one. -/
theorem readAll_eq_ok_iff : readAll fields = .ok h ↔ fields.map read? = h.fields.map some := by
  rw [readAll, readHeaders_eq_ok_iff]
  constructor
  · rintro ⟨kept, hkept, rfl⟩
    exact hkept
  · intro hkept
    exact ⟨h.fields, hkept, rfl⟩

/-- What is kept of the fields with a name. -/
theorem getAll_of_readAll (hr : readAll fields = .ok h) {name : String} {n : HeaderName}
    (hn : HeaderName.ofString? name = some n) :
    (h.getAll n).map (·.bytes) = (named fields name).map (·.value) := by
  rw [readAll_eq_ok_iff] at hr
  unfold Headers.getAll named
  generalize h.fields = kept at hr
  induction fields generalizing kept with
  | nil =>
      obtain rfl := List.map_eq_nil_iff.mp hr.symm
      rfl
  | cons f fields ih =>
      cases kept with
      | nil => cases hr
      | cons e kept =>
          obtain ⟨hf, hrest⟩ := List.cons.inj hr
          obtain ⟨hname, hvalue⟩ := read?_eq_some_iff.mp hf
          have hiff : e.1 = n ↔ SameFolded f.name name := eq_iff_sameFolded hname hn
          by_cases hsame : SameFolded f.name name
          · simp [hiff.mpr hsame, hsame, hvalue, ih kept hrest]
          · simp [mt hiff.mp hsame, hsame, ih kept hrest]

/-- A text that is no name has no fields. -/
theorem named_eq_nil (hr : readAll fields = .ok h) {name : String}
    (hn : HeaderName.ofString? name = none) : named fields name = [] := by
  rw [named, List.filter_eq_nil_iff]
  intro f hf hsame
  have hmem : f.read? ∈ h.fields.map some := readAll_eq_ok_iff.mp hr ▸ List.mem_map_of_mem hf
  obtain ⟨⟨n, v⟩, -, he⟩ := List.mem_map.mp hmem
  have hread := (read?_eq_some_iff.mp he.symm).1
  rw [(of_decide_eq_true hsame).ofString?_eq, hn] at hread
  cases hread

/-- The values of the fields with a name, joined. -/
theorem joined?_of_readAll (hr : readAll fields = .ok h) (name : String) :
    h.joined? name = if named fields name = [] then none
      else some (", ".intercalate ((named fields name).map fun f => Utf8.decodeLossy f.value)) := by
  unfold Headers.joined?
  cases hn : HeaderName.ofString? name with
  | none => rw [if_pos (named_eq_nil hr hn)]
  | some n =>
      have hvalues := getAll_of_readAll hr hn
      have htexts : (h.getAll n).map HeaderValue.lossyText =
          (named fields name).map fun f => Utf8.decodeLossy f.value := by
        have hcomp := congrArg (List.map Utf8.decodeLossy) hvalues
        rwa [List.map_map, List.map_map] at hcomp
      cases hall : h.getAll n with
      | nil =>
          rw [hall, List.map_nil] at hvalues
          rw [if_pos (List.map_eq_nil_iff.mp hvalues.symm)]
          simp only [hall]
      | cons v vs =>
          have hne : named fields name ≠ [] := by
            intro hnil
            rw [hall, hnil] at hvalues
            cases hvalues
          rw [if_neg hne, ← htexts]
          simp only [hall]

theorem joined?_eq_none_iff (hr : readAll fields = .ok h) (name : String) :
    h.joined? name = none ↔
      HeaderName.ofString? name = none ∨ ∀ f ∈ fields, ¬SameFolded f.name name := by
  have hnone : named fields name = [] ↔ ∀ f ∈ fields, ¬SameFolded f.name name := by
    simp [named, List.filter_eq_nil_iff]
  rw [joined?_of_readAll hr, ← hnone]
  constructor
  · intro h
    by_contra hne
    rw [if_neg fun hnil => hne (.inr hnil)] at h
    cases h
  · rintro (hn | hnil)
    · rw [if_pos (named_eq_nil hr hn)]
    · rw [if_pos hnil]

theorem of_joined?_eq_some (hr : readAll fields = .ok h) {name text : String}
    (htext : h.joined? name = some text) :
    text = ", ".intercalate ((named fields name).map fun f => Utf8.decodeLossy f.value) := by
  rw [joined?_of_readAll hr] at htext
  split at htext
  · cases htext
  · exact (Option.some.inj htext).symm

/-! ### What a lookup does not depend on -/

/-- Fields with other letter cases in their names make the same headers. -/
theorem readAll_of_sameFolded (hr : readAll fields = .ok h)
    (hs : List.Forall₂ (fun f f' => SameFolded f.name f'.name ∧ f.value = f'.value) fields
      fields') : readAll fields' = .ok h := by
  rw [readAll_eq_ok_iff] at hr ⊢
  rw [← hr]
  clear hr
  induction hs with
  | nil => rfl
  | cons hf _ ih => rw [List.map_cons, List.map_cons, ih, read?, read?, hf.1.ofString?_eq, hf.2]

/-- The same fields in another order, in which the fields of one name follow each other as before.
-/
structure Reordering (fields fields' : List Field) where
  place : Fin fields.length ≃ Fin fields'.length
  get_place : ∀ i, fields'.get (place i) = fields.get i
  keeps : ∀ i j, SameFolded (fields.get i).name (fields.get j).name → i < j → place i < place j

namespace Reordering

/-- The way back. -/
def symm (r : Reordering fields fields') : Reordering fields' fields where
  place := r.place.symm
  get_place i := by rw [← r.get_place, Equiv.apply_symm_apply]
  keeps i j hs hij := by
    have hget (k : Fin fields'.length) : fields.get (r.place.symm k) = fields'.get k := by
      rw [← r.get_place, Equiv.apply_symm_apply]
    have hs' : SameFolded (fields.get (r.place.symm j)).name
        (fields.get (r.place.symm i)).name := by
      rw [hget, hget]
      exact hs.symm
    -- Otherwise the two would have changed places on the way there.
    by_contra hle
    obtain heq | hlt := (not_lt.mp hle).eq_or_lt
    · exact hij.ne (r.place.symm.injective heq.symm)
    · have hback := r.keeps _ _ hs' hlt
      rw [Equiv.apply_symm_apply, Equiv.apply_symm_apply] at hback
      exact hij.not_gt hback

theorem named_sublist (r : Reordering fields fields') (name : String) :
    (named fields name).Sublist (named fields' name) := by
  obtain ⟨at?, hat⟩ := List.sublist_iff_exists_fin_orderEmbedding_get_eq.mp
    (List.filter_sublist (p := fun f : Field => SameFolded f.name name) (l := fields))
  have hname (i : Fin (named fields name).length) :
      SameFolded (fields.get (at? i)).name name := by
    rw [← hat i]
    exact of_decide_eq_true (List.mem_filter.mp (List.get_mem _ i)).2
  have hmono : StrictMono fun i => r.place (at? i) := fun i j hij =>
    r.keeps _ _ ((hname i).trans (hname j).symm) (at?.strictMono hij)
  have hsub : (named fields name).Sublist fields' := by
    rw [List.sublist_iff_exists_fin_orderEmbedding_get_eq]
    exact ⟨OrderEmbedding.ofStrictMono _ hmono, fun i => (hat i).trans (r.get_place _).symm⟩
  have hself : (named fields name).filter (fun f => SameFolded f.name name) =
      named fields name :=
    List.filter_eq_self.mpr fun f hf => (List.mem_filter.mp hf).2
  have hfilter := hsub.filter fun f => SameFolded f.name name
  rwa [hself] at hfilter

theorem named_eq (r : Reordering fields fields') (name : String) :
    named fields' name = named fields name :=
  (r.symm.named_sublist name).antisymm (r.named_sublist name)

/-- Fields are read in any order. -/
theorem exists_readAll (r : Reordering fields fields') (hr : readAll fields = .ok h) :
    ∃ h', readAll fields' = .ok h' := by
  rw [readAll_eq_ok_iff] at hr
  have hread : ∀ f ∈ fields', ∃ e, f.read? = some e := by
    intro f hf
    obtain ⟨i, rfl⟩ := List.get_of_mem hf
    have hmem : (fields'.get i).read? ∈ h.fields.map some := by
      rw [← hr, ← r.symm.get_place i]
      exact List.mem_map_of_mem (List.get_mem _ _)
    obtain ⟨e, -, he⟩ := List.mem_map.mp hmem
    exact ⟨e, he.symm⟩
  refine ⟨⟨fields'.filterMap read?⟩, readAll_eq_ok_iff.mpr ?_⟩
  rw [List.map_filterMap_some_eq_filter_map_isSome, eq_comm, List.filter_eq_self]
  intro e? he
  obtain ⟨f, hf, rfl⟩ := List.mem_map.mp he
  obtain ⟨e, he⟩ := hread f hf
  rw [he]
  rfl

end Reordering

/-- The bytes of the values could as well be joined before they are read. -/
theorem intercalate_decodeLossy (values : List (List UInt8)) :
    ", ".intercalate (values.map Utf8.decodeLossy) =
      Utf8.decodeLossy ([0x2C, 0x20].intercalate values) := by
  have hjoin (front back : List UInt8) :
      Utf8.decodeLossy (front ++ 0x2C :: 0x20 :: back) =
        Utf8.decodeLossy front ++ ", " ++ Utf8.decodeLossy back := by
    have hcomma := Utf8.decodeLossy_append_ascii front (show 0x2C < 0x80 by decide) (0x20 :: back)
    have hspace := Utf8.decodeLossy_append_ascii [] (show 0x20 < 0x80 by decide) back
    have hempty : Utf8.decodeLossy [] = "" := rfl
    have hseparator : ", " = "," ++ " " := rfl
    rw [hempty, List.nil_append, String.empty_append] at hspace
    rw [hseparator, ← String.append_assoc, String.append_assoc]
    exact hcomma.trans (congrArg _ hspace)
  induction values with
  | nil => rfl
  | cons v values ih =>
      cases values with
      | nil => rw [List.map_singleton, String.intercalate_singleton, List.intercalate_singleton]
      | cons w values =>
          rw [List.map_cons, List.map_cons, String.intercalate_cons_cons, ← List.map_cons, ih,
            List.intercalate_cons_cons, List.append_assoc]
          exact (hjoin v _).symm

/-- A lookup by name gives the values of that name in order, joined by a comma and a space, whether
they are read as text before or after. It gives nothing for a text that is no name and for a name
without fields. Letter case does not matter, nor the order of fields of different names. Requests
and responses are looked up alike, a response once its head is final. -/
theorem joined_by_name {fields : List Field} {h : Headers} (hr : readAll fields = .ok h)
    (name : String) :
    (h.joined? name = none ↔
        HeaderName.ofString? name = none ∨ ∀ f ∈ fields, ¬SameFolded f.name name) ∧
      (∀ text, h.joined? name = some text →
        text = ", ".intercalate ((named fields name).map fun f => Utf8.decodeLossy f.value) ∧
          text = Utf8.decodeLossy ([0x2C, 0x20].intercalate ((named fields name).map value))) ∧
      (∀ name', SameFolded name' name → h.joined? name' = h.joined? name) ∧
      (∀ fields', List.Forall₂ (fun f f' => SameFolded f.name f'.name ∧ f.value = f'.value) fields
          fields' → readAll fields' = .ok h) ∧
      (∀ fields', Reordering fields fields' →
        ∃ h', readAll fields' = .ok h' ∧ h'.joined? name = h.joined? name) ∧
      (∀ (request : RequestView) (response : ResponseView), request.headers = h →
        request.header? name = h.joined? name ∧
          Evaluator.requestHeader request response (some name) = h.joined? name) ∧
      ∀ (request : RequestView) (response : ResponseView) (head : ResponseHead),
        response.head = some head → head.headers = h →
          response.header? name = h.joined? name ∧
            Evaluator.responseHeader request response (some name) = h.joined? name := by
  have hjoined := joined?_of_readAll hr name
  refine ⟨joined?_eq_none_iff hr name, ?_, ?_, fun fields' => readAll_of_sameFolded hr, ?_, ?_, ?_⟩
  · intro text htext
    have hvalue := of_joined?_eq_some hr htext
    refine ⟨hvalue, ?_⟩
    rw [← intercalate_decodeLossy, List.map_map]
    exact hvalue
  · intro name' hs
    have hnamed : named fields name' = named fields name :=
      List.filter_congr fun f _ =>
        decide_eq_decide.mpr ⟨fun hf => Eq.trans hf hs, fun hf => Eq.trans hf hs.symm⟩
    rw [hjoined, joined?_of_readAll hr, hnamed]
  · intro fields' r
    obtain ⟨h', hr'⟩ := r.exists_readAll hr
    exact ⟨h', hr', by rw [hjoined, joined?_of_readAll hr', r.named_eq]⟩
  · rintro request response rfl
    exact ⟨rfl, rfl⟩
  · rintro request response head hhead rfl
    have hlookup : response.header? name = head.headers.joined? name := by
      rw [ResponseView.header?, hhead, Option.bind_some]
    exact ⟨hlookup, hlookup⟩

/-- Two values of which the first ends within a character, and one of another name between them. -/
def truncatedFields : List Field :=
  [⟨"Accept", [0x61, 0xE2, 0x82]⟩, ⟨"Host", [0x68]⟩, ⟨"ACCEPT", [0x62]⟩]

def truncatedHeaders : Headers :=
  ⟨[(⟨"accept", by decide⟩, ⟨[0x61, 0xE2, 0x82], by decide⟩),
    (⟨"host", by decide⟩, ⟨[0x68], by decide⟩), (⟨"accept", by decide⟩, ⟨[0x62], by decide⟩)]⟩

theorem joined_by_name_truncated :
    readAll truncatedFields = .ok truncatedHeaders ∧
      truncatedHeaders.joined? "aCCept" = some "a\uFFFD, b" := by
  have hread : readAll truncatedFields = .ok truncatedHeaders :=
    readAll_eq_ok_iff.mpr (by decide +kernel)
  have hlower : truncatedHeaders.joined? "accept" = some "a\uFFFD, b" := by decide +kernel
  exact ⟨hread, ((joined_by_name hread "accept").2.2.1 "aCCept" (by decide)).trans hlower⟩

end Field

end AccessLine.Http
