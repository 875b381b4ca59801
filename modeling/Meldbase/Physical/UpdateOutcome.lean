import Meldbase.Physical.Allocation
import Meldbase.Physical.Session

/-! # What an update can do

An update is refused, fails before its first write, fails between its writes, or is
published; these are all the states it can leave behind.  Whatever it does, its
writes go to pages that were free or past the end of the file.
-/
namespace Meldbase.Physical
open Logical (maxUint64)
open Outcome List

/-! ### The cache -/

/-- A cache after reads: what it holds was held before or read from the file. -/
def Warmed (nextPage : ℕ) (pages : ℕ → Option DataPage) (cache cache' : PageCache) : Prop :=
  ∀ q page, cache'.get q = some page → cache.get q = some page ∨ (q < nextPage ∧ pages q = some page)

section Cache
variable {nextPage : ℕ} {pages : ℕ → Option DataPage} {cache cache' cache'' : PageCache}

theorem Warmed.refl (nextPage : ℕ) (pages : ℕ → Option DataPage) (cache : PageCache) : Warmed nextPage pages cache cache :=
  fun _ _ h => .inl h

theorem Warmed.trans (h : Warmed nextPage pages cache cache') (h' : Warmed nextPage pages cache' cache'') :
    Warmed nextPage pages cache cache'' := by
  intro q page hget
  rcases h' q page hget with hget | hread
  · exact h q page hget
  · exact .inr hread

theorem Warmed.cached (h : Warmed nextPage pages cache cache') (hq : CachedAsStored pages cache q) :
    CachedAsStored pages cache' q := by
  intro page hget
  rcases h q page hget with hget | ⟨-,hread⟩
  · exact hq page hget
  · exact hread

theorem readDataPage_warmed (nextPage : ℕ) (pages : ℕ → Option DataPage) (cache : PageCache) (pageID : ℕ) :
    Warmed nextPage pages cache (readDataPage nextPage pages cache pageID).2 := by
  unfold readDataPage
  split_ifs with hrange
  · exact .refl nextPage pages cache
  cases hcached : cache.get pageID with
  | some page => exact .refl nextPage pages cache
  | none =>
    cases hpage : pages pageID with
    | none => exact .refl nextPage pages cache
    | some page =>
      simp only [Bool.or_eq_true,decide_eq_true_eq,not_or,not_lt,not_le] at hrange
      intro q found hget
      rcases PageCache.get_put hget with hget | ⟨rfl,rfl,-⟩
      · exact .inl hget
      · exact .inr ⟨hrange.2,hpage⟩

theorem readThrough_warmed {α : Type} (r : PageReader DataPage α) (cache : PageCache) :
    Warmed nextPage pages cache (readThrough nextPage pages r cache).2 := by
  induction r generalizing cache with
  | done a => exact .refl nextPage pages cache
  | page pageID next ih => exact (readDataPage_warmed nextPage pages cache pageID).trans (ih _ _)

theorem run_warmed {α : Type} (build : Build α) (pages : ℕ → Option DataPage) (hpool : Pool free nextPage)
    (hd : Drawn free nextPage tx.toWriteTxn) (htx : tx.filePages = nextPage) (cache : PageCache) :
    Warmed nextPage pages cache (build.run pages tx cache).2 := by
  induction build generalizing tx cache with
  | done a => exact .refl nextPage pages cache
  | fail e => exact .refl nextPage pages cache
  | read pageID next ih =>
    refine Warmed.trans ?_ (ih _ hd htx _)
    cases tx.staged pageID with
    | some page => exact .refl nextPage pages cache
    | none =>
      dsimp only
      rw [htx]
      exact readDataPage_warmed nextPage pages cache pageID
  | appendNode kind node next ih =>
    unfold Build.run
    cases hwrite : pageCodec.writeNode kind tx.toWriteTxn node with
    | error e => exact .refl nextPage pages cache
    | ok found =>
      obtain ⟨hd1,hlater⟩ := writeNode_drawn hpool hd hwrite
      exact ih _ hd1 (hlater.filePages.trans htx) cache
  | storeValue kind value sum next ih =>
    unfold Build.run
    cases hstore : Physical.storeValue kind value sum tx.toWriteTxn with
    | error e => exact .refl nextPage pages cache
    | ok found =>
      obtain ⟨hd1,hlater⟩ := storeValue_drawn hpool hd hstore
      exact ih _ hd1 (hlater.filePages.trans htx) cache
  | require feature next ih =>
    unfold Build.run
    cases hrequire : tx.requireFeature feature with
    | error e => exact .refl nextPage pages cache
    | ok tx1 =>
      obtain ⟨-,hset⟩ := guard_eq_ok.mp (show (if _ then _ else _) = _ from hrequire)
      cases hset
      exact ih (by exact hd) (by exact htx) cache
  | retain bytes next ih => exact ih (by exact hd) (by exact htx) cache
  | changeBuilds next ih => exact ih (by exact hd) (by exact htx) cache

end Cache

/-! ### Outcomes -/

/-- The update got as far as its first write, with `p` to be written. -/
structure Staged (f : File) (advance : ℕ) (build : Build DatabaseRoot) (cache : PageCache) (p : Prepared) : Prop where
  opened : f.opened = true
  fatalErr : f.fatalErr = none
  sequence_le : f.current.commitSequence+advance ≤ maxUint64
  generation_le : f.current.generation+1 ≤ maxUint64
  prepared : ∃ root tx, build.run f.pages (f.beginUpdate advance) f.cache = (.ok (root,tx),cache) ∧ tx.prepare root = .ok p

inductive Updated (f : File) (advance : ℕ) (build : Build DatabaseRoot) (faults : ℕ → Option IOFailure) :
    File → Except UpdateError Unit → Prop where
  | closed : f.opened = false → Updated f advance build faults f (.error (.storage .closed))
  | fatal (e : UpdateError) : f.fatalErr = some e → Updated f advance build faults f (.error e)
  | exhausted : Updated f advance build faults f (.error (.storage .corrupt))
  | unprepared (e : StorageError) : f.fatalErr = none →
    Updated f advance build faults { f with cache := (build.run f.pages (f.beginUpdate advance) f.cache).2 }
      (.error (.storage e))
  | unencoded {cache : PageCache} {p : Prepared} {device : Device} {e : StorageError} :
    Staged f advance build cache p → f.device.perform faults 0 p.dataCalls = (device,none) →
    encodeMeta (p.meta f.current) = .error e →
    Updated f advance build faults { f with cache := cache, device := device } (.error (.storage e))
  | dataFailed {cache : PageCache} {p : Prepared} {device : Device} {failure : IOFailure} :
    Staged f advance build cache p → f.device.perform faults 0 p.dataCalls = (device,some failure) →
    Updated f advance build faults { f with cache := cache, device := device, fatalErr := some (.io failure.code) }
      (.error (.io failure.code))
  | metaFailed {cache : PageCache} {p : Prepared} {m : Meta} {device device' : Device} {failure : IOFailure} :
    Staged f advance build cache p → f.device.perform faults 0 p.dataCalls = (device,none) →
    encodeMeta (p.meta f.current) = .ok m →
    device.perform faults p.dataCalls.length (metaCalls (otherSlot f.metaSlot) m) = (device',some failure) →
    Updated f advance build faults { f with cache := cache, device := device', fatalErr := some (.io failure.code) }
      (.error (.io failure.code))
  | published {cache : PageCache} {p : Prepared} {m : Meta} {device device' : Device} :
    Staged f advance build cache p → f.device.perform faults 0 p.dataCalls = (device,none) →
    encodeMeta (p.meta f.current) = .ok m →
    device.perform faults p.dataCalls.length (metaCalls (otherSlot f.metaSlot) m) = (device',none) →
    Updated f advance build faults (File.publish { f with cache := cache, device := device' } p m) (.ok ())

section Update
variable {f : File} {advance : ℕ} {build : Build DatabaseRoot} {cache : PageCache} {p : Prepared}

theorem attempt_cases (hopened : f.opened = true) (hfatal : f.fatalErr = none) (faults : ℕ → Option IOFailure) :
    Updated f advance build faults (f.attempt advance build faults).1 (f.attempt advance build faults).2 := by
  unfold File.attempt
  split_ifs with hexhausted
  · exact .exhausted
  simp only [Bool.or_eq_true,decide_eq_true_eq,not_or,not_lt] at hexhausted
  have hunprepared : ∀ e, Updated f advance build faults
      { f with cache := (build.run f.pages (f.beginUpdate advance) f.cache).2 } (.error (.storage e)) :=
    fun e => .unprepared e hfatal
  cases hrun : build.run f.pages (f.beginUpdate advance) f.cache with
  | mk result cache =>
  rw [hrun] at hunprepared
  cases result with
  | error e => exact hunprepared e
  | ok found =>
  obtain ⟨root,tx⟩ := found
  dsimp only
  cases hprepare : tx.prepare root with
  | error e => exact hunprepared e
  | ok p =>
  have hstaged : Staged f advance build cache p := ⟨hopened,hfatal,hexhausted.1,hexhausted.2,root,tx,hrun,hprepare⟩
  dsimp only
  unfold File.write
  cases hdata : f.device.perform faults 0 p.dataCalls with
  | mk device failed =>
  cases failed with
  | some failure => exact .dataFailed hstaged hdata
  | none =>
  dsimp only
  unfold File.publishMeta
  cases hmeta : encodeMeta (p.meta f.current) with
  | error e => exact .unencoded hstaged hdata hmeta
  | ok m =>
  dsimp only
  cases hslot : device.perform faults p.dataCalls.length (metaCalls (otherSlot f.metaSlot) m) with
  | mk device' failed =>
  cases failed with
  | some failure => exact .metaFailed hstaged hdata hmeta hslot
  | none => exact .published hstaged hdata hmeta hslot

theorem updateAdvance_cases (f : File) (advance : ℕ) (build : Build DatabaseRoot) (faults : ℕ → Option IOFailure) :
    Updated f advance build faults (f.updateAdvance advance build faults).1 (f.updateAdvance advance build faults).2 := by
  unfold File.updateAdvance
  split_ifs with hopened
  · exact .closed (by simpa using hopened)
  cases hfatal : f.fatalErr with
  | some e => exact .fatal e hfatal
  | none => exact attempt_cases (by simpa using hopened) hfatal faults

theorem beginUpdate_drawn (f : File) (advance : ℕ) :
    Drawn f.freePages f.nextPage (f.beginUpdate advance).toWriteTxn := drawn_start rfl rfl rfl rfl

theorem Staged.fresh (h : Staged f advance build cache p) (hpool : Pool f.freePages f.nextPage) :
    Fresh f.freePages f.nextPage (f.current.generation+1) p := by
  obtain ⟨root,tx,hrun,hprepare⟩ := h.prepared
  obtain ⟨hd,hlater,-⟩ := run_drawn hpool (beginUpdate_drawn f advance) hrun
  have hfresh := prepare_fresh hpool hd hprepare
  rw [hlater.generation] at hfresh
  exact hfresh

theorem Staged.warmed (h : Staged f advance build cache p) (hpool : Pool f.freePages f.nextPage) :
    Warmed f.nextPage f.pages f.cache cache := by
  obtain ⟨root,tx,hrun,-⟩ := h.prepared
  have hwarm := run_warmed build f.pages hpool (beginUpdate_drawn f advance) rfl f.cache
  rw [hrun] at hwarm
  exact hwarm

theorem Fresh.spares {next : ℕ} (h : Fresh free next stamp p) (hq : q ∉ free) (hlt : q < next) :
    q ∉ p.writes.map Prod.fst := by
  intro hmem
  obtain ⟨w,hw,rfl⟩ := mem_map.mp hmem
  rcases h.owned w hw with hreused | ⟨hle,-⟩
  · refine hq ?_
    rw [h.drawn.free_eq]
    exact mem_append_right _ (mem_reverse.mpr hreused)
  · omega

theorem dataCalls_within (p : Prepared) : ∀ call ∈ p.dataCalls, call.Within (p.writes.map Prod.fst) := by
  intro call hcall
  rcases mem_append.mp hcall with hcall | hcall
  · obtain ⟨w,hw,rfl⟩ := mem_map.mp hcall
    rintro id ⟨⟩
    exact mem_map_of_mem hw
  · rw [mem_singleton.mp hcall]
    trivial

theorem metaCalls_within (slot : Fin 2) (m : Meta) (pages : List ℕ) : ∀ call ∈ metaCalls slot m, call.Within pages := by
  intro call hcall
  rcases mem_cons.mp hcall with rfl | hcall
  · rintro id ⟨⟩
  · rw [mem_singleton.mp hcall]
    trivial

theorem perform_data_pages {faults : ℕ → Option IOFailure} {d d' : Device}
    (h : d.perform faults 0 p.dataCalls = (d',result)) (hq : q ∉ p.writes.map Prod.fst) :
    d'.view.pages q = d.view.pages q := by
  have hpages := Device.perform_pages faults (dataCalls_within p) hq 0 d
  rwa [h] at hpages

theorem perform_meta_pages {faults : ℕ → Option IOFailure} {d d' : Device}
    (h : d.perform faults index (metaCalls slot m) = (d',result)) (q : ℕ) :
    d'.view.pages q = d.view.pages q := by
  have hpages := Device.perform_pages faults (metaCalls_within slot m []) (q := q) not_mem_nil index d
  rwa [h] at hpages

end Update
end Meldbase.Physical
