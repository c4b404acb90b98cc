import P11k.Render.UniquePrefix

/-! The prefixes that are kept from one prompt to the next. A prefix is kept for a path and the time at which its
directory was modified. -/
namespace P11k.Render
open P11k P11k.Settings

/-- A component of a path that names a file. -/
structure FileName where
  text : Str
  some' : text ≠ []
  flat : '/' ∉ text
  plain : text ≠ ".".toList ∧ text ≠ "..".toList

/-- A directory at some moment: its names, unless it cannot be listed, and the nanoseconds from the epoch to its
last modification, unless they cannot be read. -/
structure Seen where
  listing : Option Listing
  modified : Option Int

structure Call where
  parent : Str
  name : FileName
  seen : Seen

/-- Times before the epoch have no duration since then. -/
def fileMtime (modified : Option Int) : Option Int :=
  modified.bind fun t => if 0 ≤ t then some (t.bmod (2^64)) else none

abbrev Key := List Component × Int

def Call.path (c : Call) : List Component := components (pushPath c.parent c.name.text)

def Call.key (c : Call) : Key := (c.path,(fileMtime c.seen.modified).getD (-1))

def Call.recomputed (c : Call) : Str :=
  match c.seen.listing with
  | none => c.name.text
  | some l => uniquePrefix l.names c.name.text

/-- The answer to a call, and what is cached then. -/
def shortenCached (cache : List (Key × Str)) (c : Call) : Str × List (Key × Str) :=
  match cache.lookup c.key with
  | some v => (v,cache)
  | none =>
      match c.seen.listing with
      | none => (c.name.text,cache)
      | some l => (uniquePrefix l.names c.name.text,(c.key,uniquePrefix l.names c.name.text) :: cache)

def answers (cache : List (Key × Str)) : List Call → List Str
  | [] => []
  | c :: calls =>
      let answered := shortenCached cache c
      answered.1 :: answers answered.2 calls

/-- The time of its last modification says what is in a directory. -/
def Determines (calls : List Call) : Prop :=
  ∀ c ∈ calls, ∀ d ∈ calls, c.path = d.path → c.seen.modified = d.seen.modified →
    c.seen.listing.map Listing.names = d.seen.listing.map Listing.names

/-- Different times are different in the cache. -/
def KeysApart (calls : List Call) : Prop :=
  ∀ c ∈ calls, ∀ d ∈ calls, c.key = d.key → c.seen.modified = d.seen.modified

/-! The last component. -/

theorem piecesLast {p : Str} {before : List Str} (name : FileName) (pieces : p.splitOn '/' = before ++ [name.text]) :
    (components p).getLast? = some (.normal name.text) := by
  obtain ⟨dot,dots⟩ := name.plain
  have body : ∃ front, ((p.splitOn '/').filter fun piece => piece ≠ [] ∧ piece ≠ ".".toList).map (fun piece =>
      if piece = "..".toList then Component.parentDir else .normal piece) = front ++ [.normal name.text] := by
    have last : ([name.text].filter fun piece => piece ≠ [] ∧ piece ≠ ".".toList) = [name.text] :=
      List.filter_cons_of_pos (decide_eq_true ⟨name.some',dot⟩)
    rw [pieces,List.filter_append,List.map_append,last,List.map_singleton,if_neg dots]
    exact ⟨_,rfl⟩
  obtain ⟨front,whole⟩ := body
  unfold components
  dsimp only
  rw [whole]
  split
  · rw [← List.cons_append,List.getLast?_concat]
  · split
    · rw [← List.cons_append,List.getLast?_concat]
    · rw [List.getLast?_concat]

theorem componentsLast (parent : Str) (name : FileName) :
    (components (pushPath parent name.text)).getLast? = some (.normal name.text) := by
  have single : name.text.splitOn '/' = [name.text] := List.splitOn_eq_singleton name.flat
  have cut : ∀ q : Str, (q ++ '/' :: name.text).splitOn '/' = q.splitOn '/' ++ [name.text] := by
    intro q
    rw [List.splitOn_append_cons_self,single]
  have relative : name.text.head? ≠ some '/' := fun slash => name.flat (List.mem_of_head? slash)
  rw [pushPath,if_neg relative]
  split
  · rename_i ends
    rcases ends with rfl | slash
    · exact @piecesLast _ [] name single
    · obtain ⟨q,rfl⟩ := List.getLast?_eq_some_iff.mp slash
      rw [List.append_assoc]
      exact piecesLast name (cut q)
  · exact piecesLast name (cut parent)

theorem pathName {c d : Call} (same : c.path = d.path) : c.name.text = d.name.text := by
  have last := componentsLast c.parent c.name
  have other := componentsLast d.parent d.name
  unfold Call.path at same
  rw [same,other] at last
  exact (Component.normal.inj (Option.some.inj last)).symm

/-! Runs of calls. -/

/-- What is cached was computed from a listing of the directory at a call that came before. -/
def Cached (past : List Call) (cache : List (Key × Str)) : Prop :=
  ∀ k v, (k,v) ∈ cache → ∃ c ∈ past, c.key = k ∧ ∃ l, c.seen.listing = some l ∧ v = uniquePrefix l.names c.name.text

theorem cachedAnswer {past : List Call} {cache : List (Key × Str)} (cached : Cached past cache) {c : Call} {v : Str}
    (determines : ∀ d ∈ past, d.path = c.path → d.seen.modified = c.seen.modified →
      d.seen.listing.map Listing.names = c.seen.listing.map Listing.names)
    (apart : ∀ d ∈ past, d.key = c.key → d.seen.modified = c.seen.modified) (found : cache.lookup c.key = some v) :
    v = c.recomputed := by
  obtain ⟨front,behind,rfl,-⟩ := List.lookup_eq_some_iff.mp found
  obtain ⟨d,there,key,l,listed,rfl⟩ := cached c.key v (by simp)
  have path : d.path = c.path := congrArg Prod.fst key
  have same := determines d there path (apart d there key)
  rw [listed] at same
  cases other : c.seen.listing with
  | none =>
    rw [other] at same
    cases same
  | some l' =>
    rw [other] at same
    have names : l.names = l'.names := Option.some.inj same
    rw [Call.recomputed,other,pathName path,names]

theorem answersRight {past calls : List Call} {cache : List (Key × Str)} (cached : Cached past cache)
    (determines : Determines (past ++ calls)) (apart : KeysApart (past ++ calls)) :
    answers cache calls = calls.map Call.recomputed := by
  induction calls generalizing past cache with
  | nil => rfl
  | cons c calls ih =>
    have here : c ∈ past ++ c :: calls := List.mem_append_right _ List.mem_cons_self
    have before : ∀ {d}, d ∈ past → d ∈ past ++ c :: calls := fun mem => List.mem_append_left _ mem
    have whole : past ++ c :: calls = (past ++ [c]) ++ calls := by simp
    have kept : Cached (past ++ [c]) cache := fun k v mem => by
      obtain ⟨d,there,rest⟩ := cached k v mem
      exact ⟨d,List.mem_append_left _ there,rest⟩
    rw [answers,List.map_cons]
    unfold shortenCached
    cases found : cache.lookup c.key with
    | some v =>
      have right := cachedAnswer cached (fun d mem => determines d (before mem) c here)
        (fun d mem => apart d (before mem) c here) found
      rw [whole] at determines apart
      exact congrArg₂ _ right (ih kept determines apart)
    | none =>
      rw [whole] at determines apart
      cases listed : c.seen.listing with
      | none =>
        have right : c.name.text = c.recomputed := by rw [Call.recomputed,listed]
        exact congrArg₂ _ right (ih kept determines apart)
      | some l =>
        have right : uniquePrefix l.names c.name.text = c.recomputed := by rw [Call.recomputed,listed]
        refine congrArg₂ _ right (ih (fun k v mem => ?_) determines apart)
        rcases List.mem_cons.mp mem with new | old
        · obtain ⟨rfl,rfl⟩ := Prod.mk.inj new
          exact ⟨c,List.mem_append_right _ List.mem_cons_self,rfl,l,listed,rfl⟩
        · exact kept k v old

/-- What is recomputed is what the fold shortens to when the directory says what was seen. -/
theorem recomputedShorten {τ : Type} {o : Outside τ} {c : Call}
    (seen : o.listDir (parentPath (pushPath c.parent c.name.text)) = c.seen.listing.map Listing.names) :
    shortenComponent o (pushPath c.parent c.name.text) c.name.text = c.recomputed := by
  rw [shortenComponent,seen,Call.recomputed]
  cases c.seen.listing with
  | none => rfl
  | some l => rfl

/-- Times that are known and lie between the epoch and the end of 64 bits are all different in the cache. -/
theorem knownApart {calls : List Call}
    (known : ∀ c ∈ calls, ∃ t, c.seen.modified = some t ∧ 0 ≤ t ∧ t < 2^63) : KeysApart calls := by
  intro c mem d mem' key
  obtain ⟨t,time,low,high⟩ := known c mem
  obtain ⟨u,time',low',high'⟩ := known d mem'
  have same : (fileMtime c.seen.modified).getD (-1) = (fileMtime d.seen.modified).getD (-1) := congrArg Prod.snd key
  have small : ∀ v : Int, 0 ≤ v → v < 2^63 → (fileMtime (some v)).getD (-1) = v := by
    intro v low high
    simp only [fileMtime,Option.bind_some,if_pos low,Option.getD_some]
    exact Int.bmod_eq_of_le (by omega) (by omega)
  rw [time,time',small t low high,small u low' high'] at same
  rw [time,time',same]

/-- Listed names are told apart by their prefixes, these are the shortest for listed names and for those that share
none of their prefixes with a single listed name, and the cache says what the directory says as long as different
times are different in it. -/
theorem uniquePrefixes (l : Listing) (name : Str) (calls : List Call) :
    (∀ other ∈ l.names, name ∈ l.names → name ≠ other → uniquePrefix l.names name ≠ uniquePrefix l.names other) ∧
    (Shortest l.names name (uniquePrefix l.names name) ↔
      name ∈ l.names ∨ ∀ j, j + 1 < name.length → beginning l.names (name.take (j + 1)) ≠ 1) ∧
    (Determines calls → KeysApart calls → answers [] calls = calls.map Call.recomputed) := by
  refine ⟨fun other mem' mem differ => prefixDistinct mem mem' differ,prefixShortest l name,
    fun determines apart => ?_⟩
  have none' : Cached [] [] := fun k v mem => absurd mem List.not_mem_nil
  exact answersRight none' determines apart

/-- The directory `/d/ab` with these siblings, at this time. -/
def inD (names : List Str) (distinct : names.Nodup) (modified : Int) : Call where
  parent := "/d".toList
  name := ⟨"ab".toList,by decide,by decide,by decide⟩
  seen := ⟨some ⟨names,distinct⟩,some modified⟩

theorem uniquePrefixesTwo :
    uniquePrefix ["ab".toList,"ac".toList] "ab".toList ≠ uniquePrefix ["ab".toList,"ac".toList] "ac".toList ∧
      answers [] [inD ["ab".toList] (by decide) 1,inD ["ab".toList] (by decide) 1] =
        [inD ["ab".toList] (by decide) 1,inD ["ab".toList] (by decide) 1].map Call.recomputed := by
  have known : ∀ c ∈ [inD ["ab".toList] (by decide) 1,inD ["ab".toList] (by decide) 1],
      c = inD ["ab".toList] (by decide) 1 := by
    intro c mem
    rcases List.mem_cons.mp mem with here | mem
    · exact here
    · exact List.mem_singleton.mp mem
  obtain ⟨distinct,-,cached⟩ := uniquePrefixes ⟨["ab".toList,"ac".toList],by decide⟩ "ab".toList
    [inD ["ab".toList] (by decide) 1,inD ["ab".toList] (by decide) 1]
  refine ⟨distinct "ac".toList (by decide) (by decide) (by decide),cached (fun c mem d mem' _ _ => ?_)
    (knownApart fun c mem => ?_)⟩
  · rw [known c mem,known d mem']
  · rw [known c mem]
    exact ⟨1,rfl,by decide,by decide⟩

/-- A name that is not listed, beside `ab`; and a directory that is modified before the epoch. -/
theorem prefixesFail :
    (¬ ∀ (l : Listing) (name : Str), Shortest l.names name (uniquePrefix l.names name)) ∧
      ¬ ∀ calls : List Call, Determines calls → answers [] calls = calls.map Call.recomputed := by
  constructor
  · intro claim
    have missing : "ax".toList ∉ ["ab".toList] := by decide
    have shared := (prefixUnlisted missing).mp (claim ⟨["ab".toList],by decide⟩ "ax".toList) 0 (by decide)
    exact shared (by decide)
  · intro claim
    have determines : Determines
        [inD ["ab".toList] (by decide) (-2),inD ["ab".toList,"ac".toList] (by decide) (-1)] := by
      intro c mem d mem' _ time
      rcases List.mem_cons.mp mem with rfl | mem
      · rcases List.mem_cons.mp mem' with rfl | mem'
        · rfl
        · obtain rfl := List.mem_singleton.mp mem'
          exact absurd time (by decide)
      · obtain rfl := List.mem_singleton.mp mem
        rcases List.mem_cons.mp mem' with rfl | mem'
        · exact absurd time (by decide)
        · obtain rfl := List.mem_singleton.mp mem'
          rfl
    exact absurd (claim _ determines) (by decide +kernel)

end P11k.Render
