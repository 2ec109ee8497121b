import Gunwinder.Native.Parse

/-!
# The parse cache and the global lists are transparent

Every valid cache entry holds what a fresh parse of its pc gives, so a hit and a miss
report the same. The global lists are emptied on entry, so a call leaves nothing of what
earlier calls put there, whichever object they were about.
-/

namespace Gunwinder

/-- A `gu_cfi` object with saved states as values. -/
abbrev ValueCfi := CfiData (List CalcRules)

variable (cfi : ValueCfi)

/-- The outcome of a parse that uses no cache. -/
def freshParse (pc : Word) : ParseOutcome := (parseMiss savedValues cfi () pc).1

/-- Every entry of the cache is a fresh parse of its pc. -/
def CacheSound (cache : ParseCache) : Prop :=
  ∀ slot entry, cache slot = some entry →
    freshParse cfi entry.pc = ⟨true, entry.signalFrame, entry.ops⟩

/-- An empty cache is sound. -/
theorem CacheSound.empty : CacheSound cfi .empty := by
  rintro slot entry ⟨⟩

/-- A hit reports what a fresh parse reports. -/
theorem CacheSound.load {cfi : ValueCfi} {cache : ParseCache} (h : CacheSound cfi cache)
    {pc : Word} {entry : ParseCacheEntry} (hload : guCfiParseCacheLoad cache pc = some entry) :
    freshParse cfi pc = ⟨true, entry.signalFrame, entry.ops⟩ := by
  unfold guCfiParseCacheLoad at hload
  split at hload
  · cases hload
  rename_i entry' hslot
  split at hload
  · cases hload
  rename_i hpc
  cases hload
  rw [← not_not.mp hpc]
  exact h _ _ hslot

/-- Storing a fresh parse keeps the cache sound, whatever entry it displaces. -/
theorem CacheSound.store {cfi : ValueCfi} {cache : ParseCache} (h : CacheSound cfi cache)
    {pc : Word} {signalFrame : Bool} {ops : Scratch}
    (hfresh : freshParse cfi pc = ⟨true, signalFrame, ops⟩) :
    CacheSound cfi (guCfiParseCacheStore cache pc signalFrame ops) := by
  unfold guCfiParseCacheStore
  split
  · intro slot entry hentry
    by_cases hslot : slot = guCfiParseCacheIndex pc
    · subst hslot
      rw [Function.update_self] at hentry
      cases hentry
      exact hfresh
    · rw [Function.update_of_ne hslot] at hentry
      exact h slot entry hentry
  · exact h

/-- Over a sound cache a call reports a fresh parse, installs its lists and keeps the
cache sound. -/
theorem guCfiParseCfiEx_sound {cfi : ValueCfi} (st : ParseState Unit)
    (h : CacheSound cfi st.cache) (pc : Word) :
    (guCfiParseCfiEx savedValues cfi st pc).1 = freshParse cfi pc ∧
      (guCfiParseCfiEx savedValues cfi st pc).2.ops = (freshParse cfi pc).ops ∧
      CacheSound cfi (guCfiParseCfiEx savedValues cfi st pc).2.cache := by
  unfold guCfiParseCfiEx
  split
  · rename_i entry hload
    rw [h.load hload]
    exact ⟨rfl, rfl, h⟩
  · refine ⟨rfl, rfl, ?_⟩
    dsimp only
    split
    · rename_i hok
      refine h.store ?_
      rw [freshParse, ← hok]
    · exact h

/-- A failed parse leaves all lists empty. -/
theorem freshParse_failed (pc : Word) :
    (freshParse cfi pc).ok = false → (freshParse cfi pc).ops = .empty := by
  unfold freshParse parseMiss
  split
  · exact fun _ => rfl
  dsimp only
  split
  · split
    · exact fun _ => rfl
    · rintro ⟨⟩
  · exact fun _ => rfl

/-- All parsers of a process: one cache per object and the global lists. -/
structure Parsers where
  caches : Nat → ParseCache
  ops : Scratch

variable (cfis : Nat → ValueCfi)

/-- A call on object `i`. -/
def Parsers.call (st : Parsers) (i : Nat) (pc : Word) : ParseOutcome × Parsers :=
  let (outcome, st') := guCfiParseCfiEx savedValues (cfis i) ⟨st.caches i, st.ops, ()⟩ pc
  (outcome, ⟨Function.update st.caches i st'.cache, st'.ops⟩)

/-- A sequence of calls. -/
def Parsers.calls (st : Parsers) (history : List (Nat × Word)) : Parsers :=
  history.foldl (fun st c => (st.call cfis c.1 c.2).2) st

/-- All caches are sound. -/
def Parsers.Sound (st : Parsers) : Prop :=
  ∀ i, CacheSound (cfis i) (st.caches i)

/-- A call on one object keeps the caches of all objects sound. -/
theorem Parsers.Sound.call {cfis : Nat → ValueCfi} {st : Parsers} (h : st.Sound cfis) (i : Nat)
    (pc : Word) : (st.call cfis i pc).2.Sound cfis := by
  intro j
  by_cases hj : j = i
  · subst hj
    simpa only [Parsers.call, Function.update_self] using
      (guCfiParseCfiEx_sound ⟨st.caches j, st.ops, ()⟩ (h j) pc).2.2
  · simpa only [Parsers.call, Function.update_of_ne hj] using h j

/-- Calls keep the caches sound. -/
theorem Parsers.Sound.calls {cfis : Nat → ValueCfi} {st : Parsers} (h : st.Sound cfis)
    (history : List (Nat × Word)) : (st.calls cfis history).Sound cfis := by
  induction history generalizing st with
  | nil => exact h
  | cons c history ih => exact ih (h.call c.1 c.2)

/-- After any history of calls on any objects, a call reports the return code and signal
flag of a single parse with an empty cache and leaves the operation lists of that parse
behind; if it fails, all of them are empty. -/
theorem parse_history_transparent (cfis : Nat → ValueCfi) (stale stale' : Scratch)
    (history : List (Nat × Word)) (i : Nat) (pc : Word) :
    let st := Parsers.calls cfis ⟨fun _ => .empty, stale⟩ history
    let last := st.call cfis i pc
    let single := guCfiParseCfiEx savedValues (cfis i) ⟨.empty, stale', ()⟩ pc
    last.1.ok = single.1.ok ∧ last.1.signalFrame = single.1.signalFrame ∧
      (∀ type cfa, guCfiGetOps last.2.ops type cfa = guCfiGetOps single.2.ops type cfa) ∧
      (last.1.ok = false → ∀ type cfa, guCfiGetOps last.2.ops (some type) cfa = some []) := by
  intro st last single
  have hsound : st.Sound cfis := Parsers.Sound.calls (fun j => CacheSound.empty (cfis j)) history
  obtain ⟨hout, hops, -⟩ := guCfiParseCfiEx_sound ⟨st.caches i, st.ops, ()⟩ (hsound i) pc
  obtain ⟨hout', hops', -⟩ :=
    guCfiParseCfiEx_sound ⟨.empty, stale', ()⟩ (CacheSound.empty (cfis i)) pc
  have hlast : last.1 = freshParse (cfis i) pc := hout
  have hlastOps : last.2.ops = (freshParse (cfis i) pc).ops := hops
  refine ⟨by rw [hlast, hout'], by rw [hlast, hout'], by rw [hlastOps, hops']; simp, ?_⟩
  intro hfail type cfa
  rw [hlastOps, freshParse_failed _ _ (hlast ▸ hfail)]
  cases type <;> cases cfa <;> rfl

end Gunwinder
