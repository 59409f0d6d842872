import JXPanel.NginxConf
import JXPanel.Pattern

namespace JXPanel
set_option autoImplicit true

open Pattern

/-- `[a-zA-Z0-9_'"]` -/
def wordChar (c : Char) : Bool := c.isAlphanum || decide (c = '_') || decide (c = Char.ofNat 39) || decide (c = '"')

/-- `.` in a regular expression: a unit of the text that ends no line. A character behind the first plane
has two units, and what follows here never takes the second. -/
def dot (c : Char) : Bool :=
  decide (c ≠ '\n') && decide (c ≠ '\r') && decide (c ≠ Char.ofNat 0x2028) && decide (c ≠ Char.ofNat 0x2029) &&
    decide (c.toNat < 0x10000)

/-- A rule of the panel: `from` is the name and the doubled marker in braces, `to` the doubled marker. -/
structure Rule where
  name : List Char
  marker : Char
  handler : List Char → List Char
  named : ∀ c ∈ name, c.isAlphanum = true
  marked : marker = '$' ∨ marker = '#'

namespace SmartSearch

def starOf (c : Char) : Item Char := .star fun d => decide (d = c)

/-- The brackets and spaces that the picker allows in front of a key and behind it. -/
def opening : List (Item Char) := [starOf '\x7b', starOf ' ', starOf '(', starOf ' ', starOf '[', starOf ' ']

def closing : List (Item Char) := [starOf ' ', starOf '\x7d', starOf ' ', starOf ')', starOf ' ', starOf ']']

/-- `[a-zA-Z0-9_'"]+` between four times the brackets of each side. -/
def picker : List (Item Char) :=
  (opening ++ opening ++ opening ++ opening) ++
    ([.one wordChar, .star wordChar] ++ (closing ++ closing ++ closing ++ closing))

/-- A character of `from` in the regular expression: a point is not escaped. -/
def searchItem (c : Char) : Item Char := .one (if c = '.' then dot else fun d => decide (d = c))

def braces : List Char := ['\x7d', '\x7d']

/-- `from` up to the marker. -/
def before (r : Rule) : List Char := ['\x7b', '\x7b'] ++ r.name ++ ['.']

def search (r : Rule) : List (Item Char) := (before r).map searchItem ++ (picker ++ braces.map searchItem)

/-- What `String.replace` makes of a replacement: `$$`, `$&`, and with the two quotes the text in front and
behind. There are no groups, so that nothing else is special. -/
def expand (found front behind : List Char) : List Char → List Char
  | [] => []
  | [c] => [c]
  | c :: d :: cs =>
    if c = '$' ∧ d = '$' then '$' :: expand found front behind cs
    else if c = '$' ∧ d = '&' then found ++ expand found front behind cs
    else if c = '$' ∧ d = Char.ofNat 96 then front ++ expand found front behind cs
    else if c = '$' ∧ d = Char.ofNat 39 then behind ++ expand found front behind cs
    else c :: expand found front behind (d :: cs)

/-- The key of a match: what stands behind as many characters as `from` has in front of its marker, up to the
braces that `from` has behind it. -/
def keyOf (r : Rule) (f : List Char) : List Char :=
  trim (((splitFirst braces (f.drop (before r).length)).map Prod.fst).getD [])

/-- `newstr`: the marker is the whole of `to`, and the result of the handler takes its place. -/
def newstr (r : Rule) (f : List Char) : List Char := expand [r.marker, r.marker] [] [] (r.handler (keyOf r f))

/-- `str.replace(found[o], newstr)` -/
def replaceFound (r : Rule) (str f : List Char) : List Char :=
  match splitFirst f str with
  | none => str
  | some (front, behind) => front ++ expand f front behind (newstr r f) ++ behind

/-- `_replace`: all matches are looked for first, then each is replaced where its text is found. -/
def replaceRule (str : List Char) (r : Rule) : List Char := (matchAll (search r) 0 str).foldl (replaceFound r) str

/-- `smart_replace` -/
def smart_replace (rules : List Rule) (str : List Char) : List Char := rules.foldl replaceRule str

end SmartSearch

/-! What a template means: each occurrence stands for what the handler makes of its key. -/

namespace Template

/-- Keys are not empty and made of what the picker takes for one. -/
structure IsKey (key : List Char) : Prop where
  ne_nil : key ≠ []
  chars : ∀ c ∈ key, wordChar c = true

/-- The occurrence of a key. -/
def mark (r : Rule) (key : List Char) : List Char := SmartSearch.before r ++ (key ++ SmartSearch.braces)

/-- The key of the occurrence that a text begins with. -/
def keyAt (r : Rule) (cs : List Char) : Option (List Char) :=
  let key := (cs.drop (SmartSearch.before r).length).takeWhile wordChar
  if key ≠ [] ∧ mark r key <+: cs then some key else none

def ruleAt (rules : List Rule) (cs : List Char) : Option (Rule × List Char) :=
  rules.findSome? fun r => (keyAt r cs).map fun key => (r, key)

/-- A character that is not part of an occurrence, or an occurrence. -/
inductive Piece
  | text (c : Char)
  | mark (r : Rule) (key : List Char)

def pieces (rules : List Rule) : Nat → List Char → List Piece
  | _, [] => []
  | skip + 1, _ :: cs => pieces rules skip cs
  | 0, c :: cs =>
    match ruleAt rules (c :: cs) with
    | none => .text c :: pieces rules 0 cs
    | some (r, key) => .mark r key :: pieces rules ((mark r key).length - 1) cs

def Piece.source : Piece → List Char
  | .text c => [c]
  | .mark r key => Template.mark r key

def Piece.value : Piece → List Char
  | .text c => [c]
  | .mark r key => r.handler key

/-- Every occurrence of a rule is replaced by what its handler makes of the key, at the same time. -/
def substitute (rules : List Rule) (cs : List Char) : List Char := (pieces rules 0 cs).flatMap Piece.value

/-- A text in which `String.replace` finds nothing special. -/
def Plain (v : List Char) : Prop := ∀ c, ['$', c] <:+: v → c ≠ '$' ∧ c ≠ '&' ∧ c ≠ Char.ofNat 96 ∧ c ≠ Char.ofNat 39

/-- What a rule asks of a text: its pattern finds nothing but occurrences, their values have nothing special,
and none stands a second time in what comes in front of it. -/
structure Clean (r : Rule) (cs : List Char) : Prop where
  exact : ∀ f ∈ matchAll (SmartSearch.search r) 0 cs, ∃ key, IsKey key ∧ f = mark r key
  plain : ∀ r' key, .mark r' key ∈ pieces [r] 0 cs → Plain (r'.handler key)
  first : ∀ a r' key b, pieces [r] 0 cs = a ++ .mark r' key :: b → ¬mark r' key <:+: a.flatMap Piece.value

/-- Every rule finds a clean text, and no occurrence that the template did not have. -/
def Unmixed (rules : List Rule) (cs : List Char) : Prop :=
  ∀ rs r rest, rules = rs ++ r :: rest →
    Clean r (substitute rs cs) ∧ substitute [r] (substitute rs cs) = substitute (rs ++ [r]) cs

section Occurrences
variable {r : Rule} {key cs : List Char} {rules : List Rule} {skip : Nat}

theorem wordChar_brace : wordChar '\x7d' = false := by decide

theorem named_ne {c : Char} (hc : c.isAlphanum = false) (r : Rule) : c ∉ r.name := by
  intro hmem
  rw [r.named c hmem] at hc
  cases hc

theorem IsKey.ne (h : IsKey key) {c : Char} (hc : wordChar c = false) : c ∉ key := by
  intro hmem
  rw [h.chars c hmem] at hc
  cases hc

/-- The characters of an occurrence that are no part of a name. -/
theorem IsKey.not_mem_rest (h : IsKey key) {c : Char} (hname : c.isAlphanum = false) (hword : wordChar c = false)
    (hdot : c ≠ '.') : c ∉ r.name ++ '.' :: key := by
  intro hmem
  rcases List.mem_append.1 hmem with hmem | hmem
  · exact named_ne hname r hmem
  · rcases List.mem_cons.1 hmem with heq | hmem
    · exact hdot heq
    · exact h.ne hword hmem

theorem mark_eq (r : Rule) (key : List Char) :
    mark r key = '\x7b' :: '\x7b' :: ((r.name ++ '.' :: key) ++ SmartSearch.braces) := by
  rw [mark, SmartSearch.before]
  simp

theorem mark_ne_nil (r : Rule) (key : List Char) : mark r key ≠ [] := by
  rw [mark_eq]
  exact List.cons_ne_nil _ _

theorem keyAt_eq_some : keyAt r cs = some key ↔ IsKey key ∧ mark r key <+: cs := by
  constructor
  · intro h
    rw [keyAt] at h
    split at h
    · rename_i hkey
      cases h
      exact ⟨⟨hkey.1, fun c hc => List.mem_takeWhile_imp hc⟩, hkey.2⟩
    · cases h
  · rintro ⟨hkey, t, rfl⟩
    have hdrop : (mark r key ++ t).drop (SmartSearch.before r).length = key ++ (SmartSearch.braces ++ t) := by
      rw [mark, List.append_assoc, List.append_assoc, List.drop_left]
    have htake : (key ++ (SmartSearch.braces ++ t)).takeWhile wordChar = key := by
      rw [List.takeWhile_append_of_pos hkey.chars]
      exact List.append_right_eq_self.2 (List.takeWhile_cons_of_neg (by rw [wordChar_brace]; exact Bool.false_ne_true))
    rw [keyAt, hdrop, htake]
    exact if_pos ⟨hkey.ne_nil, List.prefix_append _ _⟩

theorem ruleAt_single : ruleAt [r] cs = (keyAt r cs).map fun key => (r, key) := by
  rw [ruleAt, List.findSome?_cons]
  cases keyAt r cs with
  | none => rfl
  | some key => rfl

theorem ruleAt_eq_some {r : Rule} (h : ruleAt rules cs = some (r, key)) : r ∈ rules ∧ IsKey key ∧ mark r key <+: cs := by
  obtain ⟨r', hr', hkey⟩ := List.exists_of_findSome?_eq_some h
  obtain ⟨key', hkey', heq⟩ := Option.map_eq_some_iff.1 hkey
  cases heq
  exact ⟨hr', keyAt_eq_some.1 hkey'⟩

/-- The pieces of a text make it up. -/
theorem source_pieces (rules : List Rule) (skip : Nat) (cs : List Char) :
    (pieces rules skip cs).flatMap Piece.source = cs.drop skip := by
  induction cs generalizing skip with
  | nil =>
    rw [List.drop_nil]
    cases skip with
    | zero => rfl
    | succ skip => rfl
  | cons c cs ih =>
    cases skip with
    | succ skip => exact ih skip
    | zero =>
      rw [pieces]
      cases hrule : ruleAt rules (c :: cs) with
      | none =>
        dsimp only
        rw [List.flatMap_cons, ih]
        rfl
      | some found =>
        obtain ⟨r, key⟩ := found
        obtain ⟨-, -, t, ht⟩ := ruleAt_eq_some hrule
        dsimp only
        rw [List.flatMap_cons, ih, List.drop_zero, ← ht, Piece.source]
        obtain ⟨d, ds, hmark⟩ := List.exists_cons_of_ne_nil (mark_ne_nil r key)
        rw [hmark] at ht ⊢
        cases ht
        rw [List.length_cons, Nat.add_sub_cancel]
        exact congrArg (c :: ds ++ ·) List.drop_left

theorem mem_pieces {r : Rule} (h : .mark r key ∈ pieces rules skip cs) : r ∈ rules ∧ IsKey key := by
  induction cs generalizing skip with
  | nil => cases skip <;> exact absurd h List.not_mem_nil
  | cons c cs ih =>
    cases skip with
    | succ skip => exact ih h
    | zero =>
      rw [pieces] at h
      cases hrule : ruleAt rules (c :: cs) with
      | none =>
        rw [hrule] at h
        rcases List.mem_cons.1 h with heq | h
        · cases heq
        · exact ih h
      | some found =>
        obtain ⟨r', key'⟩ := found
        rw [hrule] at h
        obtain ⟨hr', hkey', -⟩ := ruleAt_eq_some hrule
        rcases List.mem_cons.1 h with heq | h
        · cases heq
          exact ⟨hr', hkey'⟩
        · exact ih h

end Occurrences

section Search
open SmartSearch
variable {r : Rule} {key cs : List Char}

theorem matches_searchItem (cs : List Char) : Matches (cs.map searchItem) cs := by
  induction cs with
  | nil => exact .nil
  | cons c cs ih =>
    apply Matches.one _ ih
    split
    · rename_i hdot
      rw [hdot]
      decide
    · exact decide_eq_true rfl

/-- The pattern of a rule takes an occurrence. -/
theorem IsKey.matches (h : IsKey key) (r : Rule) : Matches (search r) (mark r key) := by
  have hopening : ∀ i ∈ opening ++ opening ++ opening ++ opening, ∃ p, i = .star p := by
    simp [opening, starOf]
  have hclosing : ∀ i ∈ closing ++ closing ++ closing ++ closing, ∃ p, i = .star p := by
    simp [closing, starOf]
  obtain ⟨c, key, rfl⟩ := List.exists_cons_of_ne_nil h.ne_nil
  have hbraces : Matches ((closing ++ closing ++ closing ++ closing) ++ braces.map searchItem) braces :=
    (matches_searchItem braces).skip hclosing
  have hword : Matches (.star wordChar :: ((closing ++ closing ++ closing ++ closing) ++ braces.map searchItem))
      (key ++ braces) := hbraces.many fun d hd => h.chars d (List.mem_cons_of_mem _ hd)
  have hkey := (Matches.one (h.chars c List.mem_cons_self) hword).skip hopening
  rw [search, mark, picker]
  apply (matches_searchItem (before r)).append
  simpa only [List.append_assoc, List.cons_append, List.nil_append] using hkey

/-- The texts of the occurrences. -/
def Piece.found : Piece → Option (List Char)
  | .text _ => none
  | .mark r key => some (Template.mark r key)

/-- Where the pattern finds nothing but occurrences, it finds them all. -/
theorem matchAll_eq {skip : Nat} (h : ∀ f ∈ matchAll (search r) skip cs, ∃ key, IsKey key ∧ f = mark r key) :
    matchAll (search r) skip cs = (pieces [r] skip cs).filterMap Piece.found := by
  induction cs generalizing skip with
  | nil => cases skip <;> rfl
  | cons c cs ih =>
    cases skip with
    | succ skip => exact ih h
    | zero =>
      rw [matchAll] at h ⊢
      rw [pieces, ruleAt_single]
      cases htaken : taken (search r) (c :: cs) with
      | none =>
        rw [htaken] at h
        have hnokey : keyAt r (c :: cs) = none := by
          rw [Option.eq_none_iff_forall_ne_some]
          intro key hkey
          obtain ⟨hkey, t, ht⟩ := keyAt_eq_some.1 hkey
          have hsome := taken_complete (hkey.matches r) t
          rw [ht, htaken] at hsome
          cases hsome
        rw [hnokey]
        exact ih h
      | some n =>
        rw [htaken] at h
        obtain ⟨key, hkey, hmark⟩ := h _ List.mem_cons_self
        have hlen : n = (mark r key).length := by
          rw [← hmark, List.length_take, Nat.min_eq_left (taken_sound htaken).1]
        have hat : keyAt r (c :: cs) = some key := keyAt_eq_some.2 ⟨hkey, hmark ▸ List.take_prefix n (c :: cs)⟩
        rw [hat, Option.map_some]
        dsimp only
        rw [List.filterMap_cons, Piece.found, hmark, ← hlen]
        exact congrArg _ (ih fun f hf => h f (List.mem_cons_of_mem _ hf))

end Search

section Replace
open SmartSearch
variable {r : Rule} {key front behind v : List Char}

theorem expand_of_plain (found front behind : List Char) (h : Plain v) : expand found front behind v = v := by
  induction v with
  | nil => rfl
  | cons c v ih =>
    have hrest : Plain v := fun d hd => h d (hd.trans (List.suffix_cons c v).isInfix)
    cases v with
    | nil => rfl
    | cons d v =>
      have hpair : c = '$' → d ≠ '$' ∧ d ≠ '&' ∧ d ≠ Char.ofNat 96 ∧ d ≠ Char.ofNat 39 := by
        rintro rfl
        exact h d (List.prefix_append ['$', d] v).isInfix
      rw [expand, if_neg fun hc => (hpair hc.1).1 hc.2, if_neg fun hc => (hpair hc.1).2.1 hc.2,
        if_neg fun hc => (hpair hc.1).2.2.1 hc.2, if_neg fun hc => (hpair hc.1).2.2.2 hc.2, ih hrest]

/-- No occurrence begins within another one. -/
theorem IsKey.no_overlap (h : IsKey key) {a b : List Char} (hb : b ≠ [])
    (hpre : mark r key <+: b ++ (mark r key ++ behind)) : mark r key <:+: a ++ b := by
  have hinfix : mark r key <+: b → mark r key <:+: a ++ b :=
    fun hpre => hpre.isInfix.trans (List.suffix_append a b).isInfix
  rcases List.prefix_or_prefix_of_prefix hpre (List.prefix_append b _) with hwhole | ⟨w, hw⟩
  · exact hinfix hwhole
  · have hfree : '\x7b' ∉ (r.name ++ '.' :: key) ++ braces := by
      intro hmem
      rcases List.mem_append.1 hmem with hmem | hmem
      · exact h.not_mem_rest (by decide) (by decide) (by decide) hmem
      · exact absurd hmem (by decide)
    cases hwnil : w with
    | nil =>
      rw [hwnil, List.append_nil] at hw
      exact hinfix (hw ▸ List.prefix_refl _)
    | cons c ws =>
      -- what is left of the occurrence begins as the next one does
      have hstart : w <+: mark r key := by
        rw [← hw, List.append_assoc, List.prefix_append_right_inj] at hpre
        rw [← hw]
        rw [← List.append_assoc] at hpre
        apply List.prefix_of_prefix_length_le hpre (List.prefix_append _ _)
        rw [List.length_append]
        exact Nat.le_add_left _ _
      rw [hwnil] at hw hstart
      rw [mark_eq] at hw hstart
      obtain ⟨rfl, hwithin⟩ := List.cons_prefix_cons.1 hstart
      exfalso
      rcases b with _ | ⟨b₁, _ | ⟨b₂, b⟩⟩
      · exact hb rfl
      · have hws : ws = (r.name ++ '.' :: key) ++ braces := by
          have htail := List.tail_eq_of_cons_eq hw
          exact List.tail_eq_of_cons_eq htail
        rw [hws] at hwithin
        obtain ⟨c, x, hx⟩ : ∃ c x, (r.name ++ '.' :: key) ++ braces = c :: x := by
          cases r.name with
          | nil => exact ⟨'.', _, rfl⟩
          | cons c x => exact ⟨c, _, rfl⟩
        rw [hx] at hwithin hfree
        obtain ⟨rfl, -⟩ := List.cons_prefix_cons.1 hwithin
        exact hfree List.mem_cons_self
      · have hrest : b ++ '\x7b' :: ws = (r.name ++ '.' :: key) ++ braces := by
          have htail := List.tail_eq_of_cons_eq hw
          exact List.tail_eq_of_cons_eq htail
        exact hfree (hrest ▸ List.mem_append_right _ List.mem_cons_self)

/-- An occurrence that stands nowhere in front is replaced where it is. -/
theorem IsKey.splitFirst (h : IsKey key) (hfront : ¬mark r key <:+: front) (behind : List Char) :
    splitFirst (mark r key) (front ++ (mark r key ++ behind)) = some (front, behind) := by
  apply splitFirst_append _ (mark_ne_nil r key)
  intro a b hab hb hpre
  exact hfront (hab ▸ h.no_overlap hb hpre)

theorem visible_of_wordChar {c : Char} (h : wordChar c = true) : 32 < c.toNat ∧ c.toNat ≤ 127 := by
  simp only [wordChar, Bool.or_eq_true, decide_eq_true_iff] at h
  rcases h with ((h | rfl) | rfl) | rfl
  · exact visible_of_isAlphanum h
  · decide
  · decide
  · decide

theorem IsKey.trim_eq (h : IsKey key) : trim key = key := by
  apply trim_of_no_space
  intro c hc
  have hvisible := visible_of_wordChar (h.chars c hc)
  exact jsSpace_of_visible hvisible.1 hvisible.2

theorem IsKey.keyOf (h : IsKey key) (r : Rule) : keyOf r (mark r key) = key := by
  have hdrop : (mark r key).drop (before r).length = key ++ (braces ++ []) := by
    rw [mark, List.drop_left, List.append_nil]
  have hsplit : Pattern.splitFirst braces (key ++ (braces ++ [])) = some (key, []) := by
    apply splitFirst_append _ (by decide)
    intro a b hab hb hpre
    obtain ⟨c, b, rfl⟩ := List.exists_cons_of_ne_nil hb
    obtain ⟨rfl, -⟩ := List.cons_prefix_cons.1 hpre
    exact h.ne wordChar_brace (hab ▸ List.mem_append_right a List.mem_cons_self)
  rw [SmartSearch.keyOf, hdrop, hsplit]
  exact h.trim_eq

theorem IsKey.replaceFound (h : IsKey key) (hplain : Plain (r.handler key)) (hfront : ¬mark r key <:+: front)
    (behind : List Char) :
    replaceFound r (front ++ (mark r key ++ behind)) (mark r key) = front ++ (r.handler key ++ behind) := by
  rw [SmartSearch.replaceFound, h.splitFirst hfront behind, newstr, h.keyOf, expand_of_plain _ _ _ hplain]
  dsimp only
  rw [expand_of_plain _ _ _ hplain, List.append_assoc]

/-- What is replaced one by one is replaced at the same time. -/
theorem foldl_replaceFound {ps : List Piece} (front : List Char) (hps : ∀ r' key, .mark r' key ∈ ps → r' = r ∧ IsKey key ∧ Plain (r.handler key))
    (hfirst : ∀ a key b, ps = a ++ .mark r key :: b → ¬mark r key <:+: front ++ a.flatMap Piece.value) :
    (ps.filterMap Piece.found).foldl (SmartSearch.replaceFound r) (front ++ ps.flatMap Piece.source) =
      front ++ ps.flatMap Piece.value := by
  induction ps generalizing front with
  | nil => rfl
  | cons q ps ih =>
    have hrest := fun r' key hm => hps r' key (List.mem_cons_of_mem q hm)
    have hnext : ∀ a key b, ps = a ++ .mark r key :: b → ¬mark r key <:+: (front ++ q.value) ++ a.flatMap Piece.value := by
      intro a key b hab
      rw [List.append_assoc]
      exact hfirst (q :: a) key b (by rw [hab]; rfl)
    have hih := ih _ hrest hnext
    rw [List.flatMap_cons, List.flatMap_cons, ← List.append_assoc front q.value, ← hih]
    cases q with
    | text c =>
      rw [List.filterMap_cons, Piece.found, List.append_assoc]
      rfl
    | mark r' key =>
      obtain ⟨rfl, hkey, hplain⟩ := hps r' key List.mem_cons_self
      have hfront : ¬mark r' key <:+: front := by
        have hstart := hfirst [] key ps rfl
        rwa [List.flatMap_nil, List.append_nil] at hstart
      have hone := hkey.replaceFound hplain hfront (ps.flatMap Piece.source)
      rw [List.filterMap_cons, Piece.found, Piece.source, Piece.value]
      dsimp only
      rw [List.foldl_cons, hone, List.append_assoc]

/-- A rule does with a clean text what it should. -/
theorem Clean.replaceRule {cs : List Char} (h : Clean r cs) : replaceRule cs r = substitute [r] cs := by
  have hmarks : ∀ r' key, .mark r' key ∈ pieces [r] 0 cs → r' = r ∧ IsKey key ∧ Plain (r.handler key) := by
    intro r' key hm
    obtain ⟨hr', hkey⟩ := mem_pieces hm
    obtain rfl := List.mem_singleton.1 hr'
    exact ⟨rfl, hkey, h.plain r' key hm⟩
  have hrun := foldl_replaceFound [] hmarks fun a key b hab => h.first a r key b hab
  rw [source_pieces, List.drop_zero, List.nil_append, List.nil_append] at hrun
  rw [SmartSearch.replaceRule, matchAll_eq h.exact, hrun, substitute]

theorem substitute_nil (cs : List Char) : substitute [] cs = cs := by
  induction cs with
  | nil => rfl
  | cons c cs ih => exact congrArg (c :: ·) ih

theorem Unmixed.smart_replace {rules : List Rule} {cs : List Char} (h : Unmixed rules cs) :
    smart_replace rules cs = substitute rules cs := by
  induction rules using List.reverseRecOn with
  | nil =>
    exact (substitute_nil cs).symm
  | append_singleton rs r ih =>
    have hbefore : Unmixed rs cs := by
      intro rs' r' rest heq
      exact h rs' r' (rest ++ [r]) (by rw [heq]; simp)
    obtain ⟨hclean, hsame⟩ := h rs r [] rfl
    have hih := ih hbefore
    rw [SmartSearch.smart_replace] at hih ⊢
    rw [List.foldl_append, hih, List.foldl_cons, List.foldl_nil, hclean.replaceRule, hsame]

/-- A replacement with something special comes out with fewer `&`, or with as many and fewer `$`. -/
theorem expand_counts {found : List Char} (hfound : '&' ∉ found) (v : List Char) :
    (expand found [] [] v).count '&' ≤ v.count '&' ∧
      ((expand found [] [] v).count '&' = v.count '&' →
        (expand found [] [] v).count '$' ≤ v.count '$' ∧
          (Plain v ∨ (expand found [] [] v).count '$' < v.count '$')) := by
  have hshort : ∀ c : Char, Plain [c] := fun c d hd => by
    have hlen := hd.length_le
    simp at hlen
  have hnil : Plain [] := fun d hd => by
    have hlen := hd.length_le
    simp at hlen
  fun_induction expand found [] [] v with
  | case1 => exact ⟨Nat.le_refl _, fun _ => ⟨Nat.le_refl _, .inl hnil⟩⟩
  | case2 c => exact ⟨Nat.le_refl _, fun _ => ⟨Nat.le_refl _, .inl (hshort c)⟩⟩
  | case3 c d cs h ih =>
    obtain ⟨rfl, rfl⟩ := h
    simp only [List.count_cons] at ih ⊢
    refine ⟨by simpa using ih.1, fun heq => ?_⟩
    have hless := (ih.2 (by simpa using heq)).1
    simp only [beq_self_eq_true, if_true]
    exact ⟨by omega, .inr (by omega)⟩
  | case4 c d cs _ h ih =>
    obtain ⟨rfl, rfl⟩ := h
    have hzero := List.count_eq_zero.2 hfound
    have hle := ih.1
    simp only [List.count_append, List.count_cons, hzero] at hle ⊢
    exact ⟨by simp; omega, fun heq => by simp at heq; omega⟩
  | case5 c d cs _ _ h ih =>
    obtain ⟨rfl, rfl⟩ := h
    simp only [List.nil_append, List.count_cons] at ih ⊢
    refine ⟨by simpa using ih.1, fun heq => ?_⟩
    have hless := (ih.2 (by simpa using heq)).1
    simp
    exact ⟨by omega, .inr (by omega)⟩
  | case6 c d cs _ _ _ h ih =>
    obtain ⟨rfl, rfl⟩ := h
    simp only [List.nil_append, List.count_cons] at ih ⊢
    refine ⟨by simpa using ih.1, fun heq => ?_⟩
    have hless := (ih.2 (by simpa using heq)).1
    simp
    exact ⟨by omega, .inr (by omega)⟩
  | case7 c d cs h₁ h₂ h₃ h₄ ih =>
    rw [List.count_cons, List.count_cons (a := '&') (b := c), List.count_cons (a := '$'), List.count_cons (a := '$') (b := c)]
    refine ⟨Nat.add_le_add_right ih.1 _, fun heq => ?_⟩
    obtain ⟨hle, hplain⟩ := ih.2 (Nat.add_right_cancel heq)
    refine ⟨Nat.add_le_add_right hle _, ?_⟩
    rcases hplain with hplain | hlt
    · left
      intro e he
      rcases List.infix_cons_iff.1 he with hpre | hin
      · obtain ⟨rfl, hnext⟩ := List.cons_prefix_cons.1 hpre
        obtain ⟨rfl, -⟩ := List.cons_prefix_cons.1 hnext
        exact ⟨fun hc => h₁ ⟨rfl, hc⟩, fun hc => h₂ ⟨rfl, hc⟩, fun hc => h₃ ⟨rfl, hc⟩, fun hc => h₄ ⟨rfl, hc⟩⟩
      · exact hplain e hin
    · exact .inr (Nat.add_lt_add_right hlt _)

/-- Replaced twice, a text comes out as it was just when nothing in it is special. -/
theorem expand_expand_iff {found found' : List Char} (h : '&' ∉ found) (h' : '&' ∉ found') (v : List Char) :
    expand found' [] [] (expand found [] [] v) = v ↔ Plain v := by
  constructor
  · intro heq
    obtain ⟨hle, hsame⟩ := expand_counts h v
    obtain ⟨hle', hsame'⟩ := expand_counts h' (expand found [] [] v)
    rw [heq] at hle' hsame'
    have hamp := Nat.le_antisymm hle hle'
    obtain ⟨hdollar, hplain⟩ := hsame hamp
    have hdollar' := (hsame' hamp.symm).1
    rcases hplain with hplain | hlt
    · exact hplain
    · omega
  · intro hplain
    rw [expand_of_plain found [] [] hplain, expand_of_plain found' [] [] hplain]

end Replace

section Single
open SmartSearch
variable {r : Rule} {key : List Char}

theorem matches_braces {ys : List Char} (h : Matches (braces.map searchItem) ys) : ys = braces := by
  cases h with
  | one hc h =>
    cases h with
    | one hd h =>
      cases h with
      | nil =>
        rw [if_neg (by decide)] at hc hd
        rw [of_decide_eq_true hc, of_decide_eq_true hd]
        rfl

/-- The pattern finds an occurrence that stands alone. -/
theorem IsKey.matchAll_mark (h : IsKey key) (r : Rule) : matchAll (search r) 0 (mark r key) = [mark r key] := by
  obtain ⟨n, hn⟩ := Option.isSome_iff_exists.1 (taken_complete (h.matches r) [])
  rw [List.append_nil] at hn
  obtain ⟨hle, hmatch⟩ := taken_sound hn
  -- what is taken ends with braces, and there are none before the end
  have hall : (mark r key).length ≤ n := by
    rw [search, ← List.append_assoc] at hmatch
    obtain ⟨xs, ys, htake, -, hys⟩ := hmatch.split
    rw [matches_braces hys] at htake
    have hfree : '\x7d' ∉ before r ++ key := by
      intro hmem
      rcases List.mem_append.1 hmem with hmem | hmem
      · rw [before] at hmem
        simp only [List.mem_append, List.mem_cons, List.not_mem_nil, or_false] at hmem
        rcases hmem with ((hmem | hmem) | hmem) | hmem
        · exact absurd hmem (by decide)
        · exact absurd hmem (by decide)
        · exact named_ne (by decide) r hmem
        · exact absurd hmem (by decide)
      · exact h.ne wordChar_brace hmem
    have hmark : mark r key = (before r ++ key) ++ braces := by rw [mark, List.append_assoc]
    have hpre : xs ++ braces <+: (before r ++ key) ++ braces := by
      rw [← hmark, ← htake]
      exact List.take_prefix n _
    have hlen : n = xs.length + 2 := by
      have hcount := congrArg List.length htake
      rw [List.length_take, Nat.min_eq_left hle, List.length_append] at hcount
      exact hcount
    by_contra hshort
    have hmarklen : (mark r key).length = (before r ++ key).length + 2 := by
      rw [hmark, List.length_append]
      rfl
    have hwithin : xs ++ ['\x7d'] <+: before r ++ key := by
      apply List.prefix_of_prefix_length_le ((List.prefix_append_right_inj xs).2 _ |>.trans hpre) (List.prefix_append _ _)
      · rw [List.length_append, List.length_singleton]
        omega
      · exact List.prefix_append ['\x7d'] ['\x7d']
    exact hfree (hwithin.subset (List.mem_append_right _ (List.mem_singleton_self _)))
  have hn' : n = (mark r key).length := Nat.le_antisymm hle hall
  obtain ⟨c, cs, hmark⟩ := List.exists_cons_of_ne_nil (mark_ne_nil r key)
  rw [hmark] at hn hn' ⊢
  rw [matchAll, hn]
  dsimp only
  rw [hn', List.take_length, List.length_cons, Nat.add_sub_cancel]
  have hrest : ∀ cs : List Char, matchAll (search r) cs.length cs = [] := by
    intro cs
    induction cs with
    | nil => rfl
    | cons c cs ih => exact ih
  rw [hrest]

/-- An occurrence that stands alone becomes its value just when the value has nothing special. -/
theorem IsKey.smart_replace_iff (h : IsKey key) (r : Rule) :
    smart_replace [r] (mark r key) = r.handler key ↔ Plain (r.handler key) := by
  have hfound : '&' ∉ mark r key := by
    rw [mark_eq]
    intro hmem
    rcases List.mem_cons.1 hmem with heq | hmem
    · exact absurd heq (by decide)
    · rcases List.mem_cons.1 hmem with heq | hmem
      · exact absurd heq (by decide)
      · rcases List.mem_append.1 hmem with hmem | hmem
        · exact h.not_mem_rest (by decide) (by decide) (by decide) hmem
        · exact absurd hmem (by decide)
  have hmarker : '&' ∉ [r.marker, r.marker] := by
    rcases r.marked with hm | hm <;> rw [hm] <;> decide
  have hsplit : Pattern.splitFirst (mark r key) (mark r key) = some ([], []) := by
    have hnone : ¬mark r key <:+: [] := fun hin => mark_ne_nil r key (List.infix_nil.1 hin)
    have hself := h.splitFirst hnone []
    rwa [List.append_nil, List.nil_append] at hself
  rw [smart_replace, List.foldl_cons, List.foldl_nil, replaceRule, h.matchAll_mark, List.foldl_cons, List.foldl_nil,
    SmartSearch.replaceFound, hsplit, newstr, h.keyOf]
  dsimp only
  rw [List.nil_append, List.append_nil]
  exact expand_expand_iff hmarker hfound _

end Single

open SmartSearch

/-- Rules that find clean texts make of a template what it means, and for the occurrence that stands alone
this is the case just when the value of the handler has nothing special. -/
theorem smart_replace_literal {rules : List Rule} {cs : List Char} (h : Unmixed rules cs) {key : List Char}
    (hkey : IsKey key) (r : Rule) :
    smart_replace rules cs = substitute rules cs ∧
      (smart_replace [r] (mark r key) = r.handler key ↔ Plain (r.handler key)) :=
  ⟨h.smart_replace, hkey.smart_replace_iff r⟩

/-- The rule for labels, with one text for each of them. -/
def labelRule (text : List Char) : Rule := ⟨['l', 'a', 'b', 'e', 'l'], '$', fun _ => text, by simp, .inl rfl⟩

theorem isKey_x : IsKey ['x'] := ⟨by decide, by simp [wordChar]⟩

theorem IsKey.pieces_mark {key : List Char} (h : IsKey key) (r : Rule) : pieces [r] 0 (mark r key) = [.mark r key] := by
  have hkey : keyAt r (mark r key) = some key := keyAt_eq_some.2 ⟨h, List.prefix_refl _⟩
  obtain ⟨c, cs, hmark⟩ := List.exists_cons_of_ne_nil (mark_ne_nil r key)
  have hrest : ∀ cs : List Char, pieces [r] cs.length cs = [] := by
    intro cs
    induction cs with
    | nil => rfl
    | cons c cs ih => exact ih
  rw [hmark] at hkey ⊢
  rw [pieces, ruleAt_single, hkey, Option.map_some]
  dsimp only
  rw [hmark, List.length_cons, Nat.add_sub_cancel, hrest]

theorem plain_of_not_mem {v : List Char} (h : '$' ∉ v) : Plain v := by
  intro c hc
  exact absurd (hc.subset List.mem_cons_self) h

/-- A text is clean if the pattern finds occurrences in it, none of them in what is in front of it. -/
theorem clean_of_all {r : Rule} {cs : List Char} (hplain : ∀ key, IsKey key → Plain (r.handler key))
    (hexact : ∀ f ∈ Pattern.matchAll (SmartSearch.search r) 0 cs, (keyAt r f).map (mark r) = some f)
    (hfirst : ∀ n < (pieces [r] 0 cs).length, ∀ f ∈ ((pieces [r] 0 cs)[n]?).bind Piece.found,
      ¬f <:+: ((pieces [r] 0 cs).take n).flatMap Piece.value) : Clean r cs where
  exact f hf := by
    obtain ⟨key, hkey, heq⟩ := Option.map_eq_some_iff.1 (hexact f hf)
    exact ⟨key, (keyAt_eq_some.1 hkey).1, heq.symm⟩
  plain r' key hm := by
    obtain ⟨hr, hkey⟩ := mem_pieces hm
    cases List.mem_singleton.1 hr
    exact hplain key hkey
  first a r' key b hab := by
    have hhere : ((pieces [r] 0 cs)[a.length]?).bind Piece.found = some (mark r' key) := by
      rw [hab, List.getElem?_append_right (Nat.le_refl _), Nat.sub_self]
      rfl
    have hlt : a.length < (pieces [r] 0 cs).length := by
      rw [hab, List.length_append, List.length_cons]
      omega
    have hfree := hfirst a.length hlt (mark r' key) hhere
    rwa [hab, List.take_left] at hfree

/-- The rules for labels and for files. -/
theorem unmixed_pair {r₁ r₂ : Rule} {cs : List Char} (h₁ : Clean r₁ cs) (h₂ : Clean r₂ (substitute [r₁] cs))
    (hboth : substitute [r₂] (substitute [r₁] cs) = substitute [r₁, r₂] cs) : Unmixed [r₁, r₂] cs := by
  rintro rs r rest heq
  rcases rs with _ | ⟨r', rs⟩
  · obtain ⟨rfl, -⟩ := List.cons_eq_cons.1 heq
    rw [substitute_nil]
    exact ⟨h₁, rfl⟩
  · obtain ⟨rfl, htail⟩ := List.cons_eq_cons.1 heq
    rcases rs with _ | ⟨r'', rs⟩
    · obtain ⟨rfl, -⟩ := List.cons_eq_cons.1 htail
      exact ⟨h₂, hboth⟩
    · have hlen := congrArg List.length htail
      simp at hlen

/-- The rule for files, of which the sample writes the names. -/
def fileRule : Rule := ⟨['f', 'i', 'l', 'e'], '$', fun key => key, by simp, .inl rfl⟩

/-- A label, a file, and both once more. -/
def sampleTemplate : List Char :=
  mark (labelRule []) ['x'] ++ [' '] ++ mark fileRule ['x'] ++ [' '] ++ mark (labelRule []) ['x'] ++ [' '] ++
    mark fileRule ['x']

theorem unmixed_sampleTemplate : Unmixed [labelRule ['o', 'k'], fileRule] sampleTemplate := by
  apply unmixed_pair
  · refine clean_of_all (fun _ _ => plain_of_not_mem ?_) (by decide +kernel) (by decide +kernel)
    exact (by decide : '$' ∉ ['o', 'k'])
  · refine clean_of_all (fun key hkey => plain_of_not_mem ?_) (by decide +kernel) (by decide +kernel)
    exact hkey.ne (by decide)
  · decide +kernel

theorem smart_replace_literal_sample :
    smart_replace [labelRule ['o', 'k'], fileRule] sampleTemplate =
        ['o', 'k', ' ', 'x', ' ', 'o', 'k', ' ', 'x'] ∧
      smart_replace [labelRule ['$', '&']] (mark (labelRule ['$', '&']) ['x']) ≠ ['$', '&'] := by
  obtain ⟨hall, hsingle⟩ := smart_replace_literal unmixed_sampleTemplate isKey_x (labelRule ['$', '&'])
  refine ⟨hall.trans (by decide +kernel), fun heq => ?_⟩
  exact (hsingle.1 heq '&' (List.infix_refl _)).2.1 rfl

/-- A label with two dollar signs comes out with one. -/
theorem dollars_lost : ¬∀ rules cs, smart_replace rules cs = substitute rules cs := by
  intro h
  have hone := h [labelRule ['$', '$']] (mark (labelRule ['$', '$']) ['x'])
  rw [substitute, isKey_x.pieces_mark] at hone
  have hplain := (isKey_x.smart_replace_iff (labelRule ['$', '$'])).1 hone
  exact (hplain '$' (List.infix_refl _)).1 rfl

end Template
end JXPanel
