import Meldbase.Library.PageReader
import Meldbase.Physical.Device

/-! # The page cache

Sixteen shards with round-robin eviction.  A shard never holds a page that was
not put into it, and an invalidated page is gone; how entries are evicted does not
matter to a reader as long as what is cached agrees with the disk.
-/
namespace Meldbase.Physical
open Option List

def pageCacheShards : ℕ := 16
def defaultCachedPages : ℕ := 1024

/-- One partition: the cached pages, the eviction ring and its hand. -/
structure PageCacheShard where
  entries : List (ℕ × DataPage)
  order : List ℕ
  (hand limit : ℕ)

namespace PageCacheShard
variable (shard : PageCacheShard)
variable (pageID : ℕ)

def get : Option DataPage := (shard.entries.find? (fun e => e.1 = pageID)).map Prod.snd
def without : List (ℕ × DataPage) := shard.entries.filter (fun e => e.1 ≠ pageID)
def put (page : DataPage) : PageCacheShard :=
  if (shard.get pageID).isSome then shard
  else if shard.limit ≤ shard.entries.length then { shard with
    entries := shard.without (shard.order.getD shard.hand 0) ++ [(pageID,page)]
    order := shard.order.set shard.hand pageID
    hand := (shard.hand+1) % shard.limit }
  else { shard with entries := shard.entries ++ [(pageID,page)], order := shard.order ++ [pageID] }
def invalidate : PageCacheShard :=
  if (shard.get pageID).isNone then shard
  else
    let index := shard.order.idxOf pageID
    let order := shard.order.eraseIdx index
    let hand := if index < shard.hand then shard.hand - 1 else shard.hand
    { shard with
      entries := shard.without pageID
      order := order
      hand := if order.length = 0 || order.length ≤ hand then 0 else hand }

section
variable {shard : PageCacheShard} {entries : List (ℕ × DataPage)} {victim pageID q : ℕ}

theorem find_filter (h : (entries.filter (fun e => e.1 ≠ victim)).find? (fun e => e.1 = pageID) = some e) :
    pageID ≠ victim ∧ entries.find? (fun e => e.1 = pageID) = some e := by
  have hid := find?_some h
  have hmem := mem_filter.mp (mem_of_find?_eq_some h)
  simp only [decide_eq_true_eq] at hid hmem
  have hne : pageID ≠ victim := hid ▸ hmem.2
  refine ⟨hne,?_⟩
  rw [find?_filter] at h
  rw [← h]
  congr 1
  funext x
  by_cases hx : x.1 = pageID
  · simp [hx,hne]
  · simp [hx]

theorem get_without (hentries : entries = shard.without victim)
    (h : (entries.find? (fun e => e.1 = pageID)).map Prod.snd = some page) :
    pageID ≠ victim ∧ shard.get pageID = some page := by
  subst hentries
  obtain ⟨e,he,rfl⟩ := map_eq_some_iff.mp h
  obtain ⟨hne,he⟩ := find_filter he
  exact ⟨hne,by rw [get,he]; rfl⟩

theorem get_append (h : ((entries ++ [(pageID,page)]).find? (fun e => e.1 = q)).map Prod.snd = some cached) :
    (entries.find? (fun e => e.1 = q)).map Prod.snd = some cached ∨ (q = pageID ∧ cached = page) := by
  rw [find?_append,map_or] at h
  rcases or_eq_some_iff.mp h with h | ⟨-,h⟩
  · exact .inl h
  by_cases hq : pageID = q
  · subst hq
    simp only [find?_singleton,decide_true,if_true,map_some,some.injEq] at h
    exact .inr ⟨rfl,h.symm⟩
  · simp [hq] at h

theorem get_put (h : (shard.put pageID page).get q = some cached) :
    shard.get q = some cached ∨ (q = pageID ∧ cached = page ∧ shard.get q = none) := by
  unfold put at h
  split_ifs at h with hcached hfull
  · exact .inl h
  · rcases get_append h with h | ⟨rfl,rfl⟩
    · exact .inl (get_without rfl h).2
    · exact .inr ⟨rfl,rfl,by simpa using hcached⟩
  rcases get_append h with h | ⟨rfl,rfl⟩
  · exact .inl h
  · exact .inr ⟨rfl,rfl,by simpa using hcached⟩

theorem get_invalidate (h : (shard.invalidate pageID).get q = some cached) : q ≠ pageID ∧ shard.get q = some cached := by
  unfold invalidate at h
  split_ifs at h with hcached
  · refine ⟨?_,h⟩
    rintro rfl
    rw [h] at hcached
    cases hcached
  · exact get_without rfl h

end

/-- The ring lists the resident ids once each, within the limit, and the hand is at its start or in it. -/
structure Coherent (shard : PageCacheShard) : Prop where
  resident : shard.order ~ shard.entries.map Prod.fst
  once : shard.order.Nodup
  bounded : shard.order.length ≤ shard.limit
  nonempty : 0 < shard.limit
  placed : shard.hand = 0 ∨ shard.hand < shard.order.length

namespace Coherent
variable {shard : PageCacheShard} (h : shard.Coherent)
include h

theorem mem_order (pageID : ℕ) : pageID ∈ shard.order ↔ (shard.get pageID).isSome := by
  rw [h.resident.mem_iff,get,isSome_map,find?_isSome]
  simp

theorem hand_lt (hfull : shard.limit ≤ shard.entries.length) : shard.hand < shard.order.length := by
  have hlength : shard.order.length = shard.entries.length := by simpa using h.resident.length_eq
  have := h.nonempty
  have := h.placed
  omega

theorem eraseIdx_perm (hi : i < shard.order.length) :
    shard.order.eraseIdx i ~ (shard.without shard.order[i]).map Prod.fst := by
  have hkeys : (shard.without shard.order[i]).map Prod.fst = (shard.entries.map Prod.fst).erase shard.order[i] := by
    rw [(h.resident.nodup_iff.mp h.once).erase_eq_filter,List.filter_map]
    simp [without,Function.comp_def,bne,BEq.beq]
  rw [hkeys]
  have hsplit := (getElem_cons_eraseIdx_perm hi).trans h.resident
  simpa using hsplit.erase shard.order[i]

theorem put (pageID : ℕ) (page : DataPage) : (shard.put pageID page).Coherent := by
  unfold PageCacheShard.put
  split_ifs with hcached hfull
  · exact h
  · have hhand := h.hand_lt hfull
    have hnew : pageID ∉ shard.order := by rwa [h.mem_order]
    have hset := set_perm_cons_eraseIdx hhand pageID
    have hnodup : (pageID :: shard.order.eraseIdx shard.hand).Nodup :=
      nodup_cons.mpr ⟨fun hmem => hnew (mem_of_mem_eraseIdx hmem),h.once.eraseIdx _⟩
    refine ⟨?_,hset.nodup_iff.mpr hnodup,by simpa using h.bounded,h.nonempty,?_⟩
    · rw [getD_eq_getElem?_getD,getElem?_eq_getElem hhand,getD_some,map_append]
      exact hset.trans (((h.eraseIdx_perm hhand).cons _).trans (perm_append_singleton _ _).symm)
    have hlast := Nat.mod_lt (shard.hand+1) h.nonempty
    have hlength := h.resident.length_eq
    simp only [length_map,length_set] at hlength ⊢
    omega
  have hnew : pageID ∉ shard.order := by rwa [h.mem_order]
  have hlength := h.resident.length_eq
  simp only [length_map] at hlength
  refine ⟨?_,?_,?_,h.nonempty,?_⟩
  · simpa using h.resident.append_right [pageID]
  · exact (perm_append_singleton _ _).nodup_iff.mpr (nodup_cons.mpr ⟨hnew,h.once⟩)
  · simp only [length_append,length_singleton]
    omega
  simp only [length_append,length_singleton]
  have := h.placed
  omega

theorem invalidate (pageID : ℕ) : (shard.invalidate pageID).Coherent := by
  unfold PageCacheShard.invalidate
  split_ifs with hcached
  · exact h
  have hmem : pageID ∈ shard.order := by
    rw [h.mem_order,isSome_iff_ne_none]
    simpa using hcached
  have hindex := idxOf_lt_length_of_mem hmem
  have herase := h.eraseIdx_perm hindex
  rw [getElem_idxOf] at herase
  have hbounded := h.bounded
  refine ⟨herase,h.once.eraseIdx _,?_,h.nonempty,?_⟩
  · simp only [length_eraseIdx_of_lt hindex]
    omega
  · simp only [Bool.or_eq_true,decide_eq_true_eq]
    split_ifs <;> omega

end Coherent
end PageCacheShard

structure PageCache where
  shards : Fin pageCacheShards → PageCacheShard

namespace PageCache

def shardOf (pageID : ℕ) : Fin pageCacheShards := ⟨pageID % pageCacheShards,Nat.mod_lt _ (by decide)⟩

/-- Capacity is shared out over the shards, the remainder to the first ones. -/
def newPageCache (capacity : ℕ) : PageCache :=
  let capacity := max capacity pageCacheShards
  ⟨fun index => ⟨[],[],0,capacity / pageCacheShards + if index.val < capacity % pageCacheShards then 1 else 0⟩⟩
def get (cache : PageCache) (pageID : ℕ) : Option DataPage := (cache.shards (shardOf pageID)).get pageID
def setShard (cache : PageCache) (index : Fin pageCacheShards) (shard : PageCacheShard) : PageCache :=
  ⟨fun i => if i = index then shard else cache.shards i⟩
def put (cache : PageCache) (pageID : ℕ) (page : DataPage) : PageCache :=
  cache.setShard (shardOf pageID) ((cache.shards (shardOf pageID)).put pageID page)
def invalidate (cache : PageCache) (pageIDs : List ℕ) : PageCache :=
  pageIDs.foldl (fun cache pageID =>
    cache.setShard (shardOf pageID) ((cache.shards (shardOf pageID)).invalidate pageID)) cache

theorem get_newPageCache (capacity q : ℕ) : (newPageCache capacity).get q = none := rfl

theorem get_put {cache : PageCache} {pageID q : ℕ}
    (h : (cache.put pageID page).get q = some cached) :
    cache.get q = some cached ∨ (q = pageID ∧ cached = page ∧ cache.get q = none) := by
  by_cases hshard : shardOf q = shardOf pageID
  · simp only [put,get,setShard,hshard,if_true] at h ⊢
    exact PageCacheShard.get_put h
  · simp only [put,get,setShard,hshard,if_false] at h
    exact .inl h

theorem get_invalidate {cache : PageCache} {pageIDs : List ℕ}
    (h : (cache.invalidate pageIDs).get q = some cached) : q ∉ pageIDs ∧ cache.get q = some cached := by
  unfold invalidate at h
  induction pageIDs generalizing cache with
  | nil => exact ⟨not_mem_nil,h⟩
  | cons pageID pageIDs ih =>
    obtain ⟨hrest,h⟩ := ih h
    by_cases hshard : shardOf q = shardOf pageID
    · simp only [get,setShard,hshard,if_true] at h
      obtain ⟨hne,h⟩ := PageCacheShard.get_invalidate h
      exact ⟨not_mem_cons_of_ne_of_not_mem hne hrest,by rw [get,hshard]; exact h⟩
    simp only [get,setShard,hshard,if_false] at h
    have hne : q ≠ pageID := fun heq => hshard (by rw [heq])
    exact ⟨not_mem_cons_of_ne_of_not_mem hne hrest,h⟩

inductive CacheCall
  | put (pageID : ℕ) (page : DataPage)
  | get (pageID : ℕ)
  | invalidate (pageIDs : List ℕ)

def call (cache : PageCache) : CacheCall → PageCache
  | .put pageID page => cache.put pageID page
  -- a lookup moves only the hit and miss counters
  | .get _ => cache
  | .invalidate pageIDs => cache.invalidate pageIDs
def Coherent (cache : PageCache) : Prop := ∀ index, (cache.shards index).Coherent

variable {cache : PageCache}

theorem Coherent.setShard {shard : PageCacheShard} (h : cache.Coherent) (index : Fin pageCacheShards)
    (hshard : shard.Coherent) : (cache.setShard index shard).Coherent := by
  intro i
  simp only [PageCache.setShard]
  split_ifs
  · exact hshard
  · exact h i

theorem Coherent.newPageCache (capacity : ℕ) : (newPageCache capacity).Coherent := by
  intro index
  refine ⟨.nil,nodup_nil,Nat.zero_le _,?_,.inl rfl⟩
  have : 0 < max capacity pageCacheShards / pageCacheShards := Nat.div_pos (le_max_right _ _) (by decide)
  simp only [PageCache.newPageCache]
  omega

theorem Coherent.call (h : cache.Coherent) (c : CacheCall) : (cache.call c).Coherent := by
  cases c with
  | put pageID page => exact h.setShard _ ((h _).put pageID page)
  | get pageID => exact h
  | invalidate pageIDs =>
    simp only [PageCache.call,PageCache.invalidate]
    induction pageIDs generalizing cache with
    | nil => exact h
    | cons pageID pageIDs ih => exact ih (h.setShard _ ((h _).invalidate pageID))

theorem Coherent.calls (h : cache.Coherent) (calls : List CacheCall) : (calls.foldl PageCache.call cache).Coherent := by
  induction calls generalizing cache with
  | nil => exact h
  | cons c calls ih => exact ih (h.call c)

/-- A page that is not cached is served again only after a `put` of it. -/
theorem get_calls_none {pageID : ℕ} (h : cache.get pageID = none) (calls : List CacheCall)
    (hputs : ∀ page, .put pageID page ∉ calls) : (calls.foldl PageCache.call cache).get pageID = none := by
  induction calls generalizing cache with
  | nil => exact h
  | cons c calls ih =>
    refine ih ?_ (fun page hmem => hputs page (mem_cons_of_mem _ hmem))
    by_contra hserved
    obtain ⟨page,hserved⟩ := ne_none_iff_exists'.mp hserved
    cases c with
    | put q stored =>
      rcases get_put hserved with hserved | ⟨rfl,-,-⟩
      · cases h.symm.trans hserved
      · exact hputs stored mem_cons_self
    | get q => cases h.symm.trans hserved
    | invalidate pageIDs => cases h.symm.trans (get_invalidate hserved).2

theorem calls_coherent (capacity : ℕ) (calls : List CacheCall) :
    (∀ index, let shard := (calls.foldl call (newPageCache capacity)).shards index
      shard.order.Nodup ∧ (∀ pageID, pageID ∈ shard.order ↔ (shard.get pageID).isSome) ∧
      shard.order.length ≤ shard.limit ∧
      (shard.limit ≤ shard.entries.length → shard.hand < shard.order.length)) ∧
    ∀ pageIDs : List ℕ, ∀ pageID ∈ pageIDs, ∀ later, (∀ page, CacheCall.put pageID page ∉ later) →
      ((calls ++ CacheCall.invalidate pageIDs :: later).foldl call (newPageCache capacity)).get pageID = none := by
  have h := (Coherent.newPageCache capacity).calls calls
  refine ⟨fun index => ⟨(h index).once,(h index).mem_order,(h index).bounded,(h index).hand_lt⟩,?_⟩
  intro pageIDs pageID hmem later hlater
  rw [foldl_append,foldl_cons]
  refine get_calls_none ?_ later hlater
  by_contra hserved
  obtain ⟨page,hserved⟩ := ne_none_iff_exists'.mp hserved
  exact (get_invalidate hserved).1 hmem

end PageCache

/-! ### Reading through the cache -/

/-- `readDataPageUnlocked`: a cached page, or the page on disk, which is then cached. -/
def readDataPage (nextPage : ℕ) (pages : ℕ → Option DataPage) (cache : PageCache) (pageID : ℕ) :
    Option DataPage × PageCache :=
  if pageID < 2 || nextPage ≤ pageID then (none,cache)
  else match cache.get pageID with
    | some page => (some page,cache)
    | none =>
      match pages pageID with
      | none => (none,cache)
      | some page => (some page,cache.put pageID page)
def readThrough {α : Type} (nextPage : ℕ) (pages : ℕ → Option DataPage) :
    PageReader DataPage α → PageCache → α × PageCache
  | .done a, cache => (a,cache)
  | .page pageID next, cache =>
    let (page,cache) := readDataPage nextPage pages cache pageID
    readThrough nextPage pages (next page) cache
def inFile (nextPage : ℕ) (pages : ℕ → Option DataPage) (pageID : ℕ) : Option DataPage :=
  if pageID < 2 || nextPage ≤ pageID then none else pages pageID
def CachedAsStored (pages : ℕ → Option DataPage) (cache : PageCache) (pageID : ℕ) : Prop :=
  ∀ page, cache.get pageID = some page → pages pageID = some page

section Reading
variable {α : Type} {nextPage : ℕ} {pages : ℕ → Option DataPage} {cache : PageCache}

end Reading
end Meldbase.Physical
