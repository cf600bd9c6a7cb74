import Polyglot.Proofs.OrderedMap
import Polyglot.World.Interpreter

/-!
# Registering the languages of settings

The languages of settings are checked and registered one after the other. Where all of them are in
order, each of them is afterwards exactly what the settings say and no other language has changed.
Where one of them is not, those before it have been registered all the same and the cache has been
emptied for them: only a single language is registered wholly or not at all.
-/

namespace Polyglot

variable {φ : Type}

/-- Settings in which every language is given once, and every spelling once in its language. -/
structure Config.Proper (c : Config) : Prop where
  tags : (c.languages.map Prod.fst).Nodup
  spellings : ∀ l ∈ c.languages, (l.2.map Prod.fst).Nodup

instance (c : Config) : Decidable c.Proper :=
  decidable_of_iff
    ((c.languages.map Prod.fst).Nodup ∧ ∀ l ∈ c.languages, (l.2.map Prod.fst).Nodup)
    ⟨fun h => ⟨h.1, h.2⟩, fun h => ⟨h.tags, h.spellings⟩⟩

namespace Dictionary

theorem find?_keywords {entries : List (String × String)} (distinct : (entries.map Prod.fst).Nodup)
    (spelling : String) :
    OrderedMap.find? spelling
        (entries.filterMap fun e => (Keyword.ofId? e.2).map fun k => (e.1, k)) =
      (OrderedMap.find? spelling entries).bind Keyword.ofId? := by
  induction entries with
  | nil => rfl
  | cons e entries ih =>
    obtain ⟨s, id⟩ := e
    obtain ⟨fresh, distinct⟩ := List.nodup_cons.1 distinct
    by_cases h : s = spelling
    · subst h
      have later := ih distinct
      rw [OrderedMap.find?_eq_none.2 fresh] at later
      cases known : Keyword.ofId? id <;> simp [known, OrderedMap.find?, later]
    · cases known : Keyword.ofId? id <;> simp [known, OrderedMap.find?, h, ih distinct]

theorem keywords_nodup {entries : List (String × String)} (distinct : (entries.map Prod.fst).Nodup) :
    ((entries.filterMap fun e => (Keyword.ofId? e.2).map fun k => (e.1, k)).map Prod.fst).Nodup := by
  induction entries with
  | nil => simp
  | cons e entries ih =>
    obtain ⟨fresh, distinct⟩ := List.nodup_cons.1 distinct
    cases known : Keyword.ofId? e.2 with
    | none => simpa [known] using ih distinct
    | some k =>
      rw [List.filterMap_cons, known]
      refine List.nodup_cons.2 ⟨fun again => fresh ?_, ih distinct⟩
      obtain ⟨_, listed, same⟩ := List.mem_map.1 again
      obtain ⟨e', member, formed⟩ := List.mem_filterMap.1 listed
      obtain ⟨_, -, rfl⟩ := Option.map_eq_some_iff.1 formed
      exact List.mem_map.2 ⟨e', member, same⟩

/-- A dictionary made of a word list knows exactly the words of the list. -/
theorem lookup_ofEntries {entries : List (String × String)}
    (distinct : (entries.map Prod.fst).Nodup) (tag spelling : String) :
    (ofEntries tag entries).lookup spelling =
      (OrderedMap.find? spelling entries).bind Keyword.ofId? := by
  have found := OrderedMap.get?_insertAll (keywords_nodup distinct) .empty spelling
  rw [OrderedMap.get?_empty, Option.or_none, find?_keywords distinct] at found
  exact found

end Dictionary

namespace World

/-- What registering languages leaves behind: these and no others have changed, and the cache is
empty if there were any. -/
structure Published (w w' : World φ) (languages : List (String × List (String × String))) :
    Prop where
  configured : ∀ l ∈ languages, w'.languages.get? l.1 = some (.ofEntries l.1 l.2)
  others : ∀ tag ∉ languages.map Prod.fst, w'.languages.get? tag = w.languages.get? tag
  cache : w'.cache = if languages.isEmpty then w.cache else {}

theorem published_nil (w : World φ) : w.Published w [] where
  configured _ member := by cases member
  others _ _ := rfl
  cache := rfl

theorem registerLanguage_of_accepted (w : World φ) (tag : String)
    {entries : List (String × String)} (accepted : Dictionary.unknownEntry? entries = none) :
    ∃ w', w.registerLanguage tag entries = (.ok (), w') ∧ w.Published w' [(tag, entries)] := by
  unfold registerLanguage
  rw [accepted]
  refine ⟨_, rfl, fun l member => ?_, fun other apart => ?_, rfl⟩
  · cases List.mem_singleton.1 member
    exact OrderedMap.get?_insert_self _ _ _
  · have apart : other ≠ tag := by simpa using apart
    exact OrderedMap.get?_insert_of_ne _ apart _

theorem registerLanguage_of_rejected (w : World φ) (tag : String)
    {entries : List (String × String)} {spelling id : String}
    (unknown : Dictionary.unknownEntry? entries = some (spelling, id)) :
    w.registerLanguage tag entries = (.error (.unknownKeyword tag spelling id), w) := by
  unfold registerLanguage
  rw [unknown]

/-- What is registered first stays unless it is registered again. -/
theorem Published.cons {w w₁ w₂ : World φ} {tag : String} {entries : List (String × String)}
    {rest : List (String × List (String × String))} (first : w.Published w₁ [(tag, entries)])
    (later : w₁.Published w₂ rest) (fresh : tag ∉ rest.map Prod.fst) :
    w.Published w₂ ((tag, entries) :: rest) where
  configured l member := by
    rcases List.mem_cons.1 member with rfl | member
    · rw [later.others tag fresh]
      exact first.configured (tag, entries) (by simp)
    · exact later.configured l member
  others other apart := by
    obtain ⟨apart, apartRest⟩ := not_or.1 fun h => apart (List.mem_cons.2 h)
    rw [later.others other apartRest]
    exact first.others other (by simpa using apart)
  cache := by
    have emptied : w₁.cache = {} := first.cache
    have kept := later.cache
    rw [emptied, ite_self] at kept
    exact kept

/-- Either every language is in order and all are registered, or some are registered, then comes
one that is not in order, and no more. -/
theorem registerLanguages_cases (w : World φ) {languages : List (String × List (String × String))}
    (distinct : (languages.map Prod.fst).Nodup) :
    (∃ w', w.registerLanguages languages = (.ok (), w') ∧ w.Published w' languages) ∨
    ∃ before tag entries after spelling id w', languages = before ++ (tag, entries) :: after ∧
      Dictionary.unknownEntry? entries = some (spelling, id) ∧
      w.registerLanguages languages = (.error (.unknownKeyword tag spelling id), w') ∧
      w.registerLanguages before = (.ok (), w') ∧ w.Published w' before := by
  induction languages generalizing w with
  | nil => exact .inl ⟨w, rfl, w.published_nil⟩
  | cons l rest ih =>
    obtain ⟨tag, entries⟩ := l
    obtain ⟨fresh, distinct⟩ := List.nodup_cons.1 distinct
    cases known : Dictionary.unknownEntry? entries with
    | some unknown =>
      obtain ⟨spelling, id⟩ := unknown
      have rejected := w.registerLanguage_of_rejected tag known
      refine .inr ⟨[], tag, entries, rest, spelling, id, w, rfl, known, ?_, rfl, w.published_nil⟩
      rw [registerLanguages, rejected]
    | none =>
      obtain ⟨w₁, accepted, first⟩ := w.registerLanguage_of_accepted tag known
      obtain ⟨w', done, published⟩ |
        ⟨before, tag', entries', after, spelling, id, w', rfl, unknown, stopped, done, published⟩ :=
        ih w₁ distinct
      · refine .inl ⟨w', ?_, first.cons published fresh⟩
        rw [registerLanguages, accepted]
        exact done
      · have freshBefore : tag ∉ before.map Prod.fst := fun member =>
          fresh (by rw [List.map_append]; exact List.mem_append_left _ member)
        refine .inr ⟨(tag, entries) :: before, tag', entries', after, spelling, id, w', rfl,
          unknown, ?_, ?_, first.cons published freshBefore⟩
        · rw [registerLanguages, accepted]
          exact stopped
        · rw [registerLanguages, accepted]
          exact done

/-- A registered language resolves to what it was registered with. -/
theorem Published.lookup {w w' : World φ} {languages : List (String × List (String × String))}
    (published : w.Published w' languages) {l : String × List (String × String)}
    (member : l ∈ languages) (distinct : (l.2.map Prod.fst).Nodup) (spelling : String) :
    (w'.languages.resolve l.1).lookup spelling =
      (OrderedMap.find? spelling l.2).bind Keyword.ofId? := by
  rw [Languages.resolve, published.configured l member]
  exact Dictionary.lookup_ofEntries distinct l.1 spelling

/-- Every other language resolves as before, one that is not known to what is now the standard. -/
theorem Published.resolve {w w' : World φ} {languages : List (String × List (String × String))}
    (published : w.Published w' languages) {tag : String}
    (apart : tag ∉ languages.map Prod.fst) :
    w'.languages.resolve tag = (w.languages.get? tag).getD w'.languages.standard := by
  rw [Languages.resolve, published.others tag apart]

end World

/-- Settings are rejected at the first of their languages that is not in order. The languages
before it stay registered, and the cache is empty if there are any; if there are none, nothing has
changed. If the settings are accepted, every language they give resolves to exactly the words
given, every other one resolves as before, or to the present standard if it is not known, and the
cache is empty if there are any. -/
theorem settings_published (w : World φ) {config : Config} (proper : config.Proper) :
    (∀ e w', w.configuredInterpreter config = (.error e, w') →
      ∃ before tag entries after spelling id,
        config.languages = before ++ (tag, entries) :: after ∧
        Dictionary.unknownEntry? entries = some (spelling, id) ∧
        e = .unknownKeyword tag spelling id ∧
        w.registerLanguages config.languages = (.error e, w') ∧
        w.Published w' before ∧ (before = [] → w' = w)) ∧
    ∀ i w', w.configuredInterpreter config = (.ok i, w') →
      (w.registerLanguages config.languages).1 = .ok () ∧ i.config = config ∧
      (∀ l ∈ config.languages, ∀ spelling, (w'.languages.resolve l.1).lookup spelling =
        (OrderedMap.find? spelling l.2).bind Keyword.ofId?) ∧
      (∀ tag ∉ config.languages.map Prod.fst,
        w'.languages.resolve tag = (w.languages.get? tag).getD w'.languages.standard) ∧
      w'.cache = if config.languages.isEmpty then w.cache else {} := by
  unfold World.configuredInterpreter
  obtain ⟨w₁, accepted, published⟩ |
    ⟨before, tag, entries, after, spelling, id, w₁, split, unknown, rejected, done, published⟩ :=
    w.registerLanguages_cases proper.tags
  · rw [accepted]
    refine ⟨fun e w' failed => (by cases failed), fun i w' made => ?_⟩
    cases made
    exact ⟨rfl, rfl, fun l member => published.lookup member (proper.spellings l member),
      fun tag apart => published.resolve apart, published.cache⟩
  · rw [rejected]
    refine ⟨fun e w' failed => ?_, fun i w' made => (by cases made)⟩
    cases failed
    refine ⟨before, tag, entries, after, spelling, id, split, unknown, rfl, rfl, published,
      fun none => ?_⟩
    subst none
    cases done
    rfl

/-- A world in which a script is cached. -/
def oneCached : World Unit :=
  (({} : World Unit).compile "x = 1" true).2

/-- The words of a German dictionary. -/
def germanWords : List (String × String) :=
  [("wenn", "if"), ("sonst", "else")]

/-- Settings in order give the languages they say. -/
theorem settings_published_german :
    ({ languages := [("de", germanWords)] } : Config).Proper ∧
    ∃ i w', oneCached.configuredInterpreter { languages := [("de", germanWords)] } = (.ok i, w') ∧
      (w'.languages.resolve "de").lookup "wenn" = some .ifKw ∧ w'.cache = {} := by
  have proper : ({ languages := [("de", germanWords)] } : Config).Proper := by decide
  obtain ⟨i, w', made⟩ : ∃ i w', oneCached.configuredInterpreter
      { languages := [("de", germanWords)] } = (.ok i, w') := ⟨_, _, rfl⟩
  obtain ⟨-, -, words, -, cache⟩ := (settings_published oneCached proper).2 i w' made
  exact ⟨proper, i, w', made, words ("de", germanWords) (by simp) "wenn", cache⟩

/-- Settings with a language in order and after it one that is not. -/
def mixedSettings : Config where
  languages := [("de", germanWords), ("xx", [("solange", "until")])]

/-- Rejected settings have registered a language and emptied the cache. -/
theorem rejected_settings_register :
    mixedSettings.Proper ∧ (oneCached.configuredInterpreter mixedSettings).1.isOk = false ∧
    (oneCached.languages.get? "de").isSome = false ∧
    ((oneCached.configuredInterpreter mixedSettings).2.languages.get? "de").isSome = true ∧
    oneCached.cache.isEmpty = false ∧
    (oneCached.configuredInterpreter mixedSettings).2.cache.isEmpty = true := by
  decide +kernel

end Polyglot
