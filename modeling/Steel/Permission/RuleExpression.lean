import Steel.Lib.Fallible
import Steel.Permission.ContextChains

/-! # Rule expressions

A rule is written as its permission key, followed by the contexts it applies in, in braces.
-/

namespace Steel

open List Steel.Except

/-- `str::split_once`. -/
def splitOnce (separator : Char) (text : List Char) : Option (List Char × List Char) :=
  (text.findIdx? (· = separator)).map fun i => (text.take i, text.drop (i + 1))

inductive PermissionContextKeyError where
  | invalidFormat
  | emptyNamespace
  | emptyPath
  | invalidNamespace
  | invalidPath
  | invalidUnqualified (source : PermissionKeyError)
  deriving DecidableEq

local instance lawfulBEq_text : LawfulBEq (List Char) := inferInstance

def validateNamespacedContextKey (value : List Char) : Except PermissionContextKeyError Unit :=
  match splitOnce ':' value with
  | none => throw .invalidFormat
  | some (nameSpace, path) =>
    if nameSpace = [] then throw .emptyNamespace
    else if path = [] then throw .emptyPath
    else if ':' ∈ path then throw .invalidFormat
    else if [] ∈ nameSpace.splitOn '.' then throw .invalidNamespace
    else if [] ∈ path.splitOnP (fun c => c = '.' || c = '/') then throw .invalidPath
    else if !Identifier.validateNamespace nameSpace then throw .invalidNamespace
    else if !Identifier.validatePath path then throw .invalidPath
    else pure ()

/-- `PermissionContextKey::parse`, which keeps the text. -/
def parseContextKey (value : List Char) : Except PermissionContextKeyError (List Char) := do
  if ':' ∈ value then
    validateNamespacedContextKey value
    return value
  else
    let _ ← (PermissionSegment.parse value).mapError .invalidUnqualified
    return value

inductive PermissionExpressionContextError where
  | emptyContext
  | invalidContextEntry (entry : List Char)
  | invalidContextValue (key value : List Char)
  | duplicateContextKey (key : List Char)
  | invalidDomain (domain : List Char)
  | invalidWorld (world : List Char)
  | invalidContextKey (key : List Char) (source : PermissionContextKeyError)
  | invalidRuleContext (source : PermissionRuleContextError)
  deriving DecidableEq

inductive PermissionRuleExpressionError where
  | invalidPermissionKey (value : List Char) (source : PermissionKeyError)
  | unclosedContext
  | emptyContext
  | invalidContextEntry (entry : List Char)
  | invalidContextValue (key value : List Char)
  | duplicateContextKey (key : List Char)
  | invalidDomain (domain : List Char)
  | invalidWorld (world : List Char)
  | invalidContextKey (key : List Char) (source : PermissionContextKeyError)
  | invalidRuleContext (source : PermissionRuleContextError)
  deriving DecidableEq

def PermissionRuleExpressionError.fromContextError :
    PermissionExpressionContextError → PermissionRuleExpressionError
  | .emptyContext => .emptyContext
  | .invalidContextEntry entry => .invalidContextEntry entry
  | .invalidContextValue key value => .invalidContextValue key value
  | .duplicateContextKey key => .duplicateContextKey key
  | .invalidDomain domain => .invalidDomain domain
  | .invalidWorld world => .invalidWorld world
  | .invalidContextKey key source => .invalidContextKey key source
  | .invalidRuleContext source => .invalidRuleContext source

def parseDomainContext (value : List Char) :
    Except PermissionExpressionContextError PermissionRuleContext :=
  if value = [] || !Identifier.validateNamespace value then throw (.invalidDomain value)
  else (PermissionRuleContext.ofDomain value).mapError .invalidRuleContext

def parseWorldContext (value : List Char) :
    Except PermissionExpressionContextError PermissionRuleContext :=
  match splitOnce ':' value with
  | none => throw (.invalidWorld value)
  | some (domain, name) =>
    if domain = [] || name = [] || ':' ∈ name || '/' ∈ name ||
        !Identifier.validateNamespace domain || !Identifier.validatePath name then
      throw (.invalidWorld value)
    else pure (.world ⟨String.ofList domain, String.ofList name⟩)

def parseCustomContext (key value : List Char) :
    Except PermissionExpressionContextError PermissionRuleContext := do
  let contextKey ← (parseContextKey key).mapError (.invalidContextKey key)
  (PermissionRuleContext.ofCustom contextKey value).mapError .invalidRuleContext

def domainKey : List Char := ['d', 'o', 'm', 'a', 'i', 'n']

def worldKey : List Char := ['w', 'o', 'r', 'l', 'd']

def parseKeyedContext (key value : List Char) :
    Except PermissionExpressionContextError PermissionRuleContext :=
  if key = domainKey then parseDomainContext value
  else if key = worldKey then parseWorldContext value
  else parseCustomContext key value

def splitContextEntry (entry : List Char) :
    Except PermissionExpressionContextError (List Char × List Char) :=
  match splitOnce '=' entry with
  | none => throw (.invalidContextEntry entry)
  | some (key, contextValue) =>
    if key = [] || contextValue = [] then throw (.invalidContextEntry entry)
    else if contextValue.any isReserved then throw (.invalidContextValue key contextValue)
    else pure (key, contextValue)

/-- The loop of `parse_context`, with the keys of the entries before. -/
def parseContextEntries (seenKeys : List (List Char)) :
    List (List Char) → Except PermissionExpressionContextError (List PermissionRuleContext)
  | [] => return []
  | entry :: entries => do
    let (key, contextValue) ← splitContextEntry entry
    if key ∈ seenKeys then throw (.duplicateContextKey key)
    else do
      let context ← parseKeyedContext key contextValue
      let contexts ← parseContextEntries (key :: seenKeys) entries
      return context :: contexts

def parseContext (value : List Char) :
    Except PermissionExpressionContextError PermissionRuleContext :=
  if value = [] then throw .emptyContext
  else do
    let contexts ← parseContextEntries [] (value.splitOn ',')
    (PermissionRuleContext.ofAll contexts).mapError .invalidRuleContext

structure PermissionRuleExpression where
  key : PermissionKey
  context : PermissionRuleContext

namespace PermissionRuleExpression

def parse (value : List Char) : Except PermissionRuleExpressionError PermissionRuleExpression :=
  match value.findIdx? (· = '{') with
  | none => do
    let key ← (PermissionKey.parse value).mapError (.invalidPermissionKey value)
    return ⟨key, .global⟩
  | some contextStart =>
    if value.getLast? ≠ some '}' then throw .unclosedContext
    else do
      let keyValue := value.take contextStart
      let key ← (PermissionKey.parse keyValue).mapError (.invalidPermissionKey keyValue)
      let contextValue := (value.take (value.length - 1)).drop (contextStart + 1)
      let context ← (parseContext contextValue).mapError .fromContextError
      return ⟨key, context⟩

/-- Whether the entry is the first one, and the text written so far. -/
def writeContextEntry (first : Bool) (key value : List Char) : List Char :=
  (if first then [] else [',']) ++ key ++ '=' :: value

mutual

/-- The text, and whether the next entry is the first one. -/
def writeContextEntries (first : Bool) : PermissionRuleContext → List Char × Bool
  | .global => ([], first)
  | .domain domain => (writeContextEntry first domainKey domain, false)
  | .world world =>
    (writeContextEntry first worldKey
      (world.nameSpace.toList ++ ':' :: world.path.toList), false)
  | .custom key value => (writeContextEntry first key value, false)
  | .all contexts => writeContextsEntries first contexts

def writeContextsEntries (first : Bool) : List PermissionRuleContext → List Char × Bool
  | [] => ([], first)
  | context :: contexts =>
    let (text, first) := writeContextEntries first context
    let (rest, first) := writeContextsEntries first contexts
    (text ++ rest, first)

end

def writeContext : PermissionRuleContext → List Char
  | .global => []
  | context => '{' :: (writeContextEntries true context).1 ++ ['}']

def display (expression : PermissionRuleExpression) : List Char :=
  expression.key.text ++ writeContext expression.context

end PermissionRuleExpression

theorem splitOnce_eq_some {separator : Char} {text key value : List Char} :
    splitOnce separator text = some (key, value) ↔
      text = key ++ separator :: value ∧ separator ∉ key := by
  unfold splitOnce
  rw [Option.map_eq_some_iff]
  constructor
  · rintro ⟨i, hi, heq⟩
    rw [List.findIdx?_eq_some_iff_getElem] at hi
    obtain ⟨hlt, hsep, hbefore⟩ := hi
    obtain ⟨rfl, rfl⟩ := heq
    have hsep' : text[i] = separator := by simpa using hsep
    constructor
    · rw [← hsep', ← drop_eq_getElem_cons hlt, take_append_drop]
    · intro hmem
      obtain ⟨j, hj, hget⟩ := mem_iff_getElem.1 hmem
      rw [length_take] at hj
      rw [getElem_take] at hget
      have := hbefore j (by omega)
      simp [hget] at this
  · rintro ⟨rfl, hkey⟩
    refine ⟨key.length, ?_, by simp⟩
    rw [List.findIdx?_append, List.findIdx?_eq_none_iff.2]
    · simp [List.findIdx?_cons]
    · intro c hc
      simpa using fun heq : c = separator => hkey (heq ▸ hc)

namespace PermissionRuleContext

/-- The key and the value under which a constraint is written. -/
def entry : PermissionRuleContext → List Char × List Char
  | .domain value => (domainKey, value)
  | .world id => (worldKey, id.nameSpace.toList ++ ':' :: id.path.toList)
  | .custom key value => (key, value)
  | _ => ([], [])

def entryText (context : PermissionRuleContext) : List Char :=
  (entry context).1 ++ '=' :: (entry context).2

def slotOfKey (key : List Char) : Slot :=
  if key = domainKey then .domain else if key = worldKey then .world else .custom key

/-- A constraint that is read from its own entry. -/
structure Writable (context : PermissionRuleContext) : Prop where
  isAtom : IsAtom context
  notMem : ',' ∉ entryText context
  split : splitContextEntry (entryText context) = .ok (entry context)
  parse : parseKeyedContext (entry context).1 (entry context).2 = .ok context

end PermissionRuleContext

open PermissionRuleContext

theorem parseContextKey_eq_ok {value key : List Char} (h : parseContextKey value = .ok key) :
    key = value := by
  unfold parseContextKey at h
  split at h <;>
  · obtain ⟨_, _, h⟩ := bind_eq_ok.1 h
    cases h
    rfl

variable {context : PermissionRuleContext} {value : List Char}

theorem ofDomain_eq_ok (h : ofDomain value = .ok context) : context = .domain value := by
  unfold ofDomain at h
  split at h
  · cases h
  · cases h
    rfl

variable {key value : List Char}

theorem ofCustom_eq_ok (h : ofCustom key value = .ok context) : context = .custom key value := by
  unfold ofCustom at h
  split at h
  · cases h
  · cases h
    rfl

theorem parseKeyedContext_eq_ok (h : parseKeyedContext key value = .ok context) :
    entry context = (key, value) ∧ slot context = some (slotOfKey key) := by
  unfold parseKeyedContext at h
  split at h
  · rename_i hkey
    unfold parseDomainContext at h
    split at h
    · cases h
    · rw [mapError_eq_ok] at h
      obtain rfl := ofDomain_eq_ok h
      exact ⟨by rw [hkey, entry], by simp [hkey, slotOfKey, slot]⟩
  · rename_i hdomain
    split at h
    · rename_i hkey
      unfold parseWorldContext at h
      split at h
      · cases h
      · rename_i domain name hsplit
        split at h
        · cases h
        · cases h
          constructor
          · simp [hkey, entry, String.toList_ofList, (splitOnce_eq_some.1 hsplit).1]
          · rw [slotOfKey, if_neg hdomain, if_pos hkey, slot]
    · rename_i hworld
      obtain ⟨contextKey, hcontextKey, hcustom⟩ := bind_eq_ok.1 h
      rw [mapError_eq_ok] at hcontextKey hcustom
      obtain rfl := parseContextKey_eq_ok hcontextKey
      obtain rfl := ofCustom_eq_ok hcustom
      exact ⟨by rw [entry], by simp only [slotOfKey, hdomain, hworld, if_false, slot]⟩

theorem splitContextEntry_eq_ok {text key value : List Char}
    (h : splitContextEntry text = .ok (key, value)) : text = key ++ '=' :: value := by
  unfold splitContextEntry at h
  split at h
  · cases h
  · rename_i hsplit
    split at h
    · cases h
    · split at h
      · cases h
      · cases h
        exact (splitOnce_eq_some.1 hsplit).1

theorem parseContextEntries_writable {seenKeys entries : List (List Char)}
    {contexts : List PermissionRuleContext} (hcomma : ∀ text ∈ entries, ',' ∉ text)
    (h : parseContextEntries seenKeys entries = .ok contexts) :
    contexts.length = entries.length ∧ ∀ x ∈ contexts, Writable x := by
  induction entries generalizing seenKeys contexts with
  | nil =>
    cases h
    simp
  | cons text entries ih =>
    obtain ⟨htext, hentries⟩ := forall_mem_cons.1 hcomma
    obtain ⟨⟨key, value⟩, hsplit, h⟩ := bind_eq_ok.1 h
    dsimp only at h
    split at h
    · cases h
    obtain ⟨context, hparse, h⟩ := bind_eq_ok.1 h
    obtain ⟨contexts', hrest, h⟩ := bind_eq_ok.1 h
    cases h
    obtain ⟨hlength, hwritable⟩ := ih hentries hrest
    obtain ⟨hentry, hslot⟩ := parseKeyedContext_eq_ok hparse
    have heq : entryText context = text := by
      rw [entryText, hentry, splitContextEntry_eq_ok hsplit]
    refine ⟨by simp [hlength], forall_mem_cons.2 ⟨?_, hwritable⟩⟩
    constructor
    · change (slot context).isSome = true
      rw [hslot]
      rfl
    · rwa [heq]
    · rw [heq, hentry, hsplit]
    · rw [hentry, hparse]

theorem PermissionRuleContext.Writable.slot_eq (h : Writable context) :
    slot context = some (slotOfKey (entry context).1) := (parseKeyedContext_eq_ok h.parse).2

theorem parseContextEntries_entryText {seenKeys : List (List Char)}
    {contexts : List PermissionRuleContext} (hwritable : ∀ x ∈ contexts, Writable x)
    (hdistinct : contexts.Pairwise fun x y => slot x ≠ slot y)
    (hseen : ∀ x ∈ contexts, (entry x).1 ∉ seenKeys) :
    parseContextEntries seenKeys (contexts.map entryText) = .ok contexts := by
  induction contexts generalizing seenKeys with
  | nil => rfl
  | cons context contexts ih =>
    obtain ⟨hcontext, hcontexts⟩ := forall_mem_cons.1 hwritable
    obtain ⟨hnot, hseen'⟩ := forall_mem_cons.1 hseen
    rw [pairwise_cons] at hdistinct
    have hrest := @ih ((entry context).1 :: seenKeys) hcontexts hdistinct.2 fun x hx hmem => by
      rcases mem_cons.1 hmem with heq | hmem
      · refine hdistinct.1 x hx ?_
        rw [hcontext.slot_eq, (hcontexts x hx).slot_eq, heq]
      · exact hseen' x hx hmem
    rw [map_cons, parseContextEntries, hcontext.split]
    simp only [bind, Except.bind, if_neg hnot, hcontext.parse, hrest, pure, Except.pure]

variable {contexts : List PermissionRuleContext}

theorem mem_of_ofAll (hatom : ∀ x ∈ contexts, IsAtom x) (h : ofAll contexts = .ok context) :
    ∀ x ∈ atoms context, x ∈ contexts := by
  have hflat := flatMap_atoms hatom
  have hspec := ofAll_spec fun x hx => canonical_of_isAtom (hatom x hx)
  rw [h, hflat] at hspec
  obtain ⟨hcanonical, hdemands⟩ := hspec
  intro x hx
  rw [hcanonical.sorted.mem_iff, hdemands] at hx
  obtain ⟨hx, hworld⟩ := hx
  rcases mem_demands_iff.1 hx with hx | ⟨id, hid, rfl⟩
  · exact hx
  · exact absurd (mem_demands_of_mem hid) (hworld rfl id)

theorem notMem_of_mem_splitOn {separator : Char} {text part : List Char}
    (h : part ∈ text.splitOn separator) : separator ∉ part := by
  induction text generalizing part with
  | nil =>
    rw [splitOn_nil, mem_singleton] at h
    simp [h]
  | cons c text ih =>
    rw [splitOn_cons_eq_if_modifyHead] at h
    split at h
    · rcases mem_cons.1 h with rfl | h
      · simp
      · exact ih h
    · rename_i hne
      obtain ⟨first, rest, hsplit⟩ := exists_cons_of_ne_nil (splitOn_ne_nil separator text)
      rw [hsplit] at h ih
      rcases mem_cons.1 h with rfl | h
      · rw [mem_cons, not_or]
        exact ⟨fun heq => hne (by simp [heq]), ih mem_cons_self⟩
      · exact ih (mem_cons_of_mem _ h)

theorem exists_atom_of_ofAll (hatom : ∀ x ∈ contexts, IsAtom x) (hne : contexts ≠ [])
    (h : ofAll contexts = .ok context) : atoms context ≠ [] := by
  have hspec := ofAll_spec fun x hx => canonical_of_isAtom (hatom x hx)
  rw [h, flatMap_atoms hatom] at hspec
  intro hnil
  obtain ⟨x, hx⟩ := exists_mem_of_ne_nil _ hne
  have hmem := mem_demands_of_mem hx
  rw [← hspec.2, hnil] at hmem
  simp [mem_demands] at hmem

/-- The chains that are written in braces and read from them. -/
structure PermissionRuleContext.Expressible (context : PermissionRuleContext) : Prop where
  canonical : Canonical context
  ne_nil : atoms context ≠ []
  writable : ∀ x ∈ atoms context, Writable x

theorem parseContext_expressible (h : parseContext value = .ok context) : Expressible context := by
  unfold parseContext at h
  split at h
  · cases h
  obtain ⟨contexts, hcontexts, hall⟩ := bind_eq_ok.1 h
  rw [mapError_eq_ok] at hall
  have hcomma := fun text => @notMem_of_mem_splitOn ',' value text
  obtain ⟨hlength, hwritable⟩ := parseContextEntries_writable hcomma hcontexts
  have hatom : ∀ x ∈ contexts, IsAtom x := fun x hx => (hwritable x hx).isAtom
  constructor
  · have hspec := ofAll_spec fun x hx => canonical_of_isAtom (hatom x hx)
    rw [hall] at hspec
    exact hspec.1
  · refine exists_atom_of_ofAll hatom ?_ hall
    rintro rfl
    exact splitOn_ne_nil ',' value (length_eq_zero_iff.1 hlength.symm)
  · exact fun x hx => hwritable x (mem_of_ofAll hatom hall x hx)

namespace PermissionRuleExpression

variable {context : PermissionRuleContext}

theorem writeContextEntries_of_isAtom (h : IsAtom context) (first : Bool) :
    writeContextEntries first context =
      ((if first then [] else [',']) ++ entryText context, false) := by
  cases context with
  | global => cases h
  | all contexts => cases h
  | _ => simp [writeContextEntries, writeContextEntry, entryText, entry]

theorem writeContextsEntries_false (h : ∀ x ∈ contexts, IsAtom x) :
    writeContextsEntries false contexts =
      (contexts.flatMap fun x => ',' :: entryText x, false) := by
  induction contexts with
  | nil => rfl
  | cons context contexts ih =>
    obtain ⟨hcontext, hcontexts⟩ := forall_mem_cons.1 h
    rw [writeContextsEntries, writeContextEntries_of_isAtom hcontext]
    simp [ih hcontexts]

theorem intercalate_entryText (context : PermissionRuleContext)
    (contexts : List PermissionRuleContext) :
    [','].intercalate ((context :: contexts).map entryText) =
      entryText context ++ contexts.flatMap fun x => ',' :: entryText x := by
  induction contexts generalizing context with
  | nil => simp
  | cons context' contexts ih =>
    rw [map_cons, map_cons, intercalate_cons_cons, ← map_cons, ih]
    simp

theorem writeContext_eq (h : Expressible context) :
    writeContext context = '{' :: [','].intercalate ((atoms context).map entryText) ++ ['}'] := by
  have hatom := h.canonical.sorted.distinct.1
  have hne := h.ne_nil
  by_cases hcontext : IsAtom context
  · rw [atoms_eq_singleton hcontext, writeContext, writeContextEntries_of_isAtom hcontext]
    · simp
    · rintro rfl
      cases hcontext
  · cases context with
    | global => exact absurd rfl hne
    | all contexts =>
      rw [atoms] at hatom hne ⊢
      obtain ⟨context, contexts, rfl⟩ := exists_cons_of_ne_nil hne
      obtain ⟨hcontext, hcontexts⟩ := forall_mem_cons.1 hatom
      rw [intercalate_entryText, writeContext, writeContextEntries, writeContextsEntries,
        writeContextEntries_of_isAtom hcontext]
      · simp [writeContextsEntries_false hcontexts]
      · rintro ⟨⟩
    | _ => exact absurd rfl hcontext

theorem parseContext_intercalate (h : Expressible context) :
    parseContext ([','].intercalate ((atoms context).map entryText)) = .ok context := by
  have hsplit : ([','].intercalate ((atoms context).map entryText)).splitOn ',' =
      (atoms context).map entryText := by
    refine splitOn_intercalate ',' ?_ (by simpa using h.ne_nil)
    intro text htext
    obtain ⟨x, hx, rfl⟩ := mem_map.1 htext
    exact (h.writable x hx).notMem
  have hne : [','].intercalate ((atoms context).map entryText) ≠ [] := by
    obtain ⟨x, xs, hxs⟩ := exists_cons_of_ne_nil h.ne_nil
    rw [hxs, intercalate_entryText]
    simp [entryText]
  have hparse := @parseContextEntries_entryText [] (atoms context) h.writable
    h.canonical.sorted.distinct.2 (by simp)
  rw [parseContext, if_neg hne, hsplit, hparse]
  exact mapError_eq_ok.2 h.canonical.ofAll_atoms

theorem parse_key_eq_ok {key : PermissionKey}
    (h : PermissionKey.parse value = .ok key) : key.text = value := by
  unfold PermissionKey.parse at h
  split at h
  · cases h
  · cases h
    rfl

theorem parse_key_text (key : PermissionKey) : PermissionKey.parse key.text = .ok key := by
  unfold PermissionKey.parse
  split
  · rename_i e he
    rw [key.valid] at he
    cases he
  · rfl

/-- What an expression that was read consists of. -/
structure Readable (expression : PermissionRuleExpression) : Prop where
  notMem : '{' ∉ expression.key.text
  context : expression.context = .global ∨ Expressible expression.context

variable {expression : PermissionRuleExpression}

theorem parse_readable (h : parse value = .ok expression) : Readable expression := by
  unfold parse at h
  split at h
  · rename_i hnone
    obtain ⟨key, hkey, h⟩ := bind_eq_ok.1 h
    rw [mapError_eq_ok] at hkey
    cases h
    constructor
    · rw [parse_key_eq_ok hkey]
      intro hmem
      simpa using List.findIdx?_eq_none_iff.1 hnone _ hmem
    · exact .inl rfl
  · rename_i contextStart hstart
    split at h
    · cases h
    obtain ⟨key, hkey, h⟩ := bind_eq_ok.1 h
    obtain ⟨context, hcontext, h⟩ := bind_eq_ok.1 h
    rw [mapError_eq_ok] at hkey hcontext
    cases h
    constructor
    · have hsplit : splitOnce '{' value =
          some (value.take contextStart, value.drop (contextStart + 1)) := by
        rw [splitOnce, hstart, Option.map_some]
      rw [parse_key_eq_ok hkey]
      exact (splitOnce_eq_some.1 hsplit).2
    · exact .inr (parseContext_expressible hcontext)

theorem Readable.parse_display (h : Readable expression) :
    parse expression.display = .ok expression := by
  obtain ⟨key, context⟩ := expression
  have hnone : key.text.findIdx? (· = '{') = none := by
    rw [List.findIdx?_eq_none_iff]
    intro c hc
    simpa using fun heq : c = '{' => h.notMem (heq ▸ hc)
  rcases h.context with hcontext | hcontext
  · obtain rfl : context = .global := hcontext
    rw [display, writeContext, append_nil, parse, hnone]
    simp only [parse_key_text]
    rfl
  · have hdisplay : display ⟨key, context⟩ =
        key.text ++ '{' :: ([','].intercalate ((atoms context).map entryText) ++ ['}']) := by
      rw [display, writeContext_eq hcontext, cons_append]
    have hparse := parseContext_intercalate hcontext
    rw [hdisplay]
    generalize [','].intercalate ((atoms context).map entryText) = body at hparse
    have hstart : (key.text ++ '{' :: (body ++ ['}'])).findIdx? (· = '{') =
        some key.text.length := by
      simp [List.findIdx?_append, hnone, List.findIdx?_cons]
    have hlast : (key.text ++ '{' :: (body ++ ['}'])).getLast? = some '}' := by
      simp [List.getLast?_append, List.getLast?_cons]
    have hbody : ((key.text ++ '{' :: (body ++ ['}'])).take
        ((key.text ++ '{' :: (body ++ ['}'])).length - 1)).drop (key.text.length + 1) = body := by
      simp [take_append, drop_append]
    rw [parse, hstart]
    simp only [hlast, ne_eq, not_true_eq_false, if_false, hbody, hparse, take_left, parse_key_text]
    rfl

/-- Rule expressions have one text, and chains of contexts one form: however the contexts are
nested, ordered and repeated, the same chain is built, and it holds where all of them hold. -/
theorem canonicalForm : (∀ value expression, parse value = .ok expression →
      parse expression.display = .ok expression) ∧
    (∀ contexts : List PermissionRuleContext, (∀ c ∈ contexts, PermissionRuleContext.Built c) →
      (∀ arrangement : Arrangement, (∀ c, c ∈ arrangement.contexts ↔ c ∈ contexts) →
        arrangement.build.toOption = (ofAll contexts).toOption) ∧
      ∀ context, ofAll contexts = .ok context → ∀ active : PermissionContext, active.Built →
          (isMatch active context = true ↔ ∀ c ∈ contexts, isMatch active c = true)) := by
  constructor
  · exact fun value expression h => (parse_readable h).parse_display
  · intro contexts hbuilt
    have hcanonical : ∀ c ∈ contexts, Canonical c := fun c hc => (hbuilt c hc).canonical
    constructor
    · exact fun arrangement hmem => Arrangement.build_eq_ofAll hcanonical hmem
    · exact fun context hall active hactive =>
        hactive.worldInDomain.isMatch_ofAll hcanonical hall

theorem exists_of_isSome {ε α : Type} {x : Except ε α} (h : x.toOption.isSome) :
    ∃ a, x = .ok a := by
  cases x with
  | ok a => exact ⟨a, rfl⟩
  | error => cases h

/-- A rule in two contexts, and the contexts in another nesting and order. -/
theorem canonicalForm_twoContexts :
    let domain : PermissionRuleContext := .domain ['d']
    let mode : PermissionRuleContext := .custom ['m'] ['1']
    (∃ expression, parse "a{m=1,domain=d}".toList = .ok expression ∧
      parse expression.display = .ok expression) ∧
    (Arrangement.group [.single mode, .group [.single domain, .single mode]]).build.toOption =
      (ofAll [domain, mode]).toOption ∧
    ∃ context, ofAll [domain, mode] = .ok context ∧
      (isMatch .global context = true ↔ ∀ c ∈ [domain, mode], isMatch .global c = true) := by
  intro domain mode
  obtain ⟨hdisplay, hcontexts⟩ := canonicalForm
  obtain ⟨harrange, hmatch⟩ := hcontexts [domain, mode]
    (forall_mem_cons.2 ⟨.domain _, forall_mem_singleton.2 (.custom _ _)⟩)
  obtain ⟨expression, hparse⟩ : ∃ expression, parse "a{m=1,domain=d}".toList = .ok expression :=
    exists_of_isSome (by decide +kernel)
  obtain ⟨context, hall⟩ : ∃ context, ofAll [domain, mode] = .ok context :=
    exists_of_isSome (by decide +kernel)
  refine ⟨⟨expression, hparse, hdisplay _ _ hparse⟩, harrange _ fun c => ?_, context, hall,
    hmatch context hall _ .global⟩
  simp [Arrangement.contexts, Arrangement.contextsOfParts, or_comm]

end PermissionRuleExpression

end Steel
