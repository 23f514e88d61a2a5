import Mainnet.Jsonrpc.FilterManager

namespace Mainnet.Jsonrpc

open Lib List Function FilterManager

namespace TimeHeap

variable {t : TimeHeap} {id : String} {items : List String} {ws : String → Bool}

theorem Holds.congr_bases (h : t.Holds items ws) (bases : String → FilterBase)
    (ws' : String → Bool) (hindex : ∀ id, (bases id).heapIndex = (t.bases id).heapIndex)
    (hws : ∀ id, (bases id).ws = ws' id) :
    TimeHeap.Holds { t with bases } items ws' where
  indexed :=
    { nodup := h.indexed.nodup
      heapIndex := fun k id hk ↦ (hindex id).trans (h.indexed.heapIndex k id hk)
      outside := fun id hid ↦ (hindex id).trans (h.indexed.outside id hid) }
  perm := h.perm
  ws := hws

end TimeHeap

namespace FilterManager

variable {m : FilterManager} {id : String} {ws : Bool} {now : ℕ}

def hasWSConn (m : FilterManager) (id : String) : Bool := (m.timeouts.bases id).ws

structure Inv (m : FilterManager) : Prop where
  indexed : m.timeouts.Indexed
  mem_iff : ∀ id, id ∈ m.timeouts.items ↔ id ∈ m.filters ∧ m.hasWSConn id = false
  nodup : m.filters.Nodup
  filters_created : ∀ id ∈ m.filters, id ∈ m.created
  reading_created : ∀ id ∈ m.reading, id ∈ m.created ∧ m.hasWSConn id = false

theorem Inv.exact (h : Inv m) : TimeoutsExact m := ⟨h.mem_iff, h.indexed.nodup, h.indexed.heapIndex⟩

variable {items : List String} {conn : String → Bool} {w : Worker}

theorem Inv.of_holds (h : m.timeouts.Holds items conn)
    (hmem : ∀ id, id ∈ items ↔ id ∈ m.filters ∧ conn id = false) (hnodup : m.filters.Nodup)
    (hfilters : ∀ id ∈ m.filters, id ∈ m.created)
    (hreading : ∀ id ∈ m.reading, id ∈ m.created ∧ conn id = false) : Inv m where
  indexed := h.indexed
  mem_iff id := by rw [h.mem_iff, hmem, hasWSConn, h.ws]
  nodup := hnodup
  filters_created := hfilters
  reading_created id hid := by
    rw [hasWSConn, h.ws]
    exact hreading id hid

theorem addFilterTimeout_holds (h : m.timeouts.Holds items conn) (hid : id ∉ items) (now : ℕ) :
    (m.addFilterTimeout id now).timeouts.Holds (items ++ [id]) conn := by
  refine TimeHeap.Holds.addFilter (h.congr_bases _ conn ?_ ?_) hid
  · intro other
    by_cases heq : other = id
    · rw [heq, update_self]
    · rw [update_of_ne heq]
  · intro other
    rw [← h.ws]
    by_cases heq : other = id
    · rw [heq, update_self]
    · rw [update_of_ne heq]

section Sections

variable (h : Inv m)
include h

theorem Inv.holds : m.timeouts.Holds m.timeouts.items m.hasWSConn := h.indexed.holds

theorem Inv.addFilter_holds (hid : id ∉ m.created) (ws : Bool) (now : ℕ) :
    (m.addFilter id ws now).timeouts.Holds
      (if ws then m.timeouts.items else m.timeouts.items ++ [id]) (update m.hasWSConn id ws) := by
  have hout : id ∉ m.timeouts.items := fun hmem ↦
    hid (h.filters_created id ((h.mem_iff id).mp hmem).1)
  have hbase : TimeHeap.Holds
      ⟨m.timeouts.items, update m.timeouts.bases id ⟨noIndexInHeap, 0, ws⟩⟩
      m.timeouts.items (update m.hasWSConn id ws) := by
    refine h.holds.congr_bases _ _ (fun other ↦ ?_) fun other ↦ ?_
    · by_cases heq : other = id
      · rw [heq, update_self, h.indexed.outside id hout]
      · rw [update_of_ne heq]
    · by_cases heq : other = id
      · rw [heq, update_self, update_self]
      · rw [update_of_ne heq, update_of_ne heq]
        rfl
  cases ws with
  | true => exact hbase
  | false => exact addFilterTimeout_holds hbase hout now

theorem Inv.addFilter (hid : id ∉ m.created) (ws : Bool) (now : ℕ) :
    Inv (m.addFilter id ws now) := by
  have hfilters : (m.addFilter id ws now).filters = id :: m.filters := by
    cases ws <;> rfl
  have hcreated : (m.addFilter id ws now).created = id :: m.created := by
    cases ws <;> rfl
  have hreading : (m.addFilter id ws now).reading = m.reading := by
    cases ws <;> rfl
  have hnew : id ∉ m.filters := fun hmem ↦ hid (h.filters_created id hmem)
  refine .of_holds (h.addFilter_holds hid ws now) ?_ ?_ ?_ ?_
  · intro other
    rw [hfilters, mem_cons]
    by_cases heq : other = id
    · subst heq
      cases ws with
      | true => simp [h.mem_iff, hnew]
      | false => simp
    · rw [update_of_ne heq]
      cases ws with
      | true | false => simp [h.mem_iff, heq]
  · rw [hfilters]
    exact nodup_cons.mpr ⟨hnew, h.nodup⟩
  · intro other hother
    rw [hfilters, mem_cons] at hother
    rw [hcreated, mem_cons]
    exact hother.imp_right (h.filters_created other)
  · intro other hother
    rw [hreading] at hother
    obtain ⟨hmem, hconn⟩ := h.reading_created other hother
    have hne : other ≠ id := fun heq ↦ hid (heq ▸ hmem)
    rw [hcreated, update_of_ne hne]
    exact ⟨mem_cons_of_mem id hmem, hconn⟩

theorem Inv.removeFilterByID_holds (id : String) :
    (m.removeFilterByID id).timeouts.Holds
      (if id ∈ m.filters then m.timeouts.items.erase id else m.timeouts.items) m.hasWSConn := by
  rw [removeFilterByID]
  split
  · have hremove := (h.holds.removeFilter id).1
    dsimp only
    split
    · exact hremove
    · exact hremove
  · exact h.holds

end Sections

theorem removeFilterByID_filters (m : FilterManager) (id : String) :
    (m.removeFilterByID id).filters = m.filters.erase id := by
  rw [removeFilterByID]
  split
  · dsimp only
    split <;> rfl
  · rename_i hid
    exact (erase_of_not_mem hid).symm

theorem removeFilterByID_frame (m : FilterManager) (id : String) :
    (m.removeFilterByID id).created = m.created ∧ (m.removeFilterByID id).reading = m.reading ∧
      (m.removeFilterByID id).timer = m.timer := by
  rw [removeFilterByID]
  split
  · dsimp only
    split <;> exact ⟨rfl, rfl, rfl⟩
  · exact ⟨rfl, rfl, rfl⟩

section

variable (h : Inv m)
include h

theorem Inv.removeFilterByID (id : String) : Inv (m.removeFilterByID id) := by
  obtain ⟨hcreated, hreading, _⟩ := m.removeFilterByID_frame id
  have hfilters := m.removeFilterByID_filters id
  refine .of_holds (h.removeFilterByID_holds id) ?_ ?_ ?_ ?_
  · intro other
    rw [hfilters, h.nodup.mem_erase_iff]
    split
    · rw [h.indexed.nodup.mem_erase_iff, h.mem_iff, and_assoc]
    · rename_i hid
      rw [h.mem_iff]
      refine ⟨fun hother ↦ ⟨⟨fun heq ↦ hid (heq ▸ hother.1), hother.1⟩, hother.2⟩, fun hother ↦
        ⟨hother.1.2, hother.2⟩⟩
  · rw [hfilters]
    exact h.nodup.erase id
  · intro other hother
    rw [hfilters] at hother
    rw [hcreated]
    exact h.filters_created other (mem_of_mem_erase hother)
  · intro other hother
    rw [hreading] at hother
    rw [hcreated]
    exact h.reading_created other hother

theorem Inv.refresh_holds (id : String) (now : ℕ) :
    (m.refreshFilterTimeout id now).timeouts.Holds (m.timeouts.items.erase id ++ [id])
      m.hasWSConn := by
  have hremove := (h.holds.removeFilter id).1
  refine addFilterTimeout_holds hremove ?_ now
  exact h.indexed.nodup.not_mem_erase

theorem Inv.refresh (hid : id ∈ m.timeouts.items) (now : ℕ) :
    Inv (m.refreshFilterTimeout id now) := by
  refine .of_holds (h.refresh_holds id now) (fun other ↦ ?_) h.nodup h.filters_created
    h.reading_created
  rw [mem_append, mem_singleton, h.indexed.nodup.mem_erase_iff]
  refine Iff.trans ⟨?_, fun hother ↦ ?_⟩ (h.mem_iff other)
  · rintro (hother | rfl)
    · exact hother.2
    · exact hid
  · by_cases heq : other = id
    · exact .inr heq
    · exact .inl ⟨heq, hother⟩

theorem Inv.moveWorker (worker : Worker) (timer : Option String) : Inv { m with worker, timer } :=
  ⟨h.indexed, h.mem_iff, h.nodup, h.filters_created, h.reading_created⟩

theorem Inv.setWorker (worker : Worker) : Inv { m with worker } :=
  h.moveWorker worker m.timer

theorem Inv.eraseReading (id : String) : Inv { m with reading := m.reading.erase id } :=
  ⟨h.indexed, h.mem_iff, h.nodup, h.filters_created, fun other hother ↦
    h.reading_created other (mem_of_mem_erase hother)⟩

theorem Inv.foldl_removeFilterByID (ids : List String) :
    Inv (ids.foldl FilterManager.removeFilterByID m) := by
  induction ids generalizing m with
  | nil => exact h
  | cons id ids ih => exact ih (h.removeFilterByID id)

end

theorem inv_newFilterManager : Inv newFilterManager where
  indexed := ⟨nodup_nil, nofun, fun _ _ ↦ rfl⟩
  mem_iff _ := ⟨nofun, nofun⟩
  nodup := nodup_nil
  filters_created := nofun
  reading_created := nofun

theorem Inv.step (h : Inv m) (a : Section) (hok : RefreshesInstalled m a) : Inv (m.step a) := by
  cases a with
  | newFilter id ws now =>
    rw [FilterManager.step]
    split
    · exact h
    · exact h.addFilter ‹_› ws now
  | getFilterAndChanges id =>
    rw [FilterManager.step]
    split
    · rename_i hid
      refine ⟨h.indexed, h.mem_iff, h.nodup, h.filters_created, fun other hother ↦ ?_⟩
      rcases mem_cons.mp hother with rfl | hother
      · exact ⟨h.filters_created other hid.1, hid.2⟩
      · exact h.reading_created other hother
    · exact h
  | refresh id now =>
    rw [FilterManager.step]
    split
    · rename_i hid
      have hmem := (h.mem_iff id).mpr ⟨hok hid, (h.reading_created id hid).2⟩
      exact (h.eraseReading id).refresh hmem now
    · exact h
  | uninstall id | removeFilterByWs id => exact h.removeFilterByID id
  | nextTimeout | park | fire | dispatchEvent | flushWsFilters _ | close =>
    -- the worker moves, and may set its timer
    rw [FilterManager.step]
    split <;> first | exact h | exact h.moveWorker _ _
  | expire =>
    rw [FilterManager.step]
    split
    · exact (h.setWorker _).removeFilterByID _
    · exact h.setWorker _
    · exact h
  | removeClosed =>
    rw [FilterManager.step]
    split
    · exact (h.setWorker _).foldl_removeFilterByID _
    · exact h

theorem Inv.exact_step_iff (h : Inv m) (a : Section) :
    TimeoutsExact (m.step a) ↔ RefreshesInstalled m a := by
  refine ⟨fun hexact ↦ ?_, fun hok ↦ (h.step a hok).exact⟩
  cases a with
  | refresh id now =>
    intro hid
    rw [FilterManager.step, if_pos hid] at hexact
    have hmem := ((h.eraseReading id).refresh_holds id now).mem_iff.mpr
      (mem_append_right _ (mem_singleton_self id))
    exact ((hexact.mem_iff id).mp hmem).1
  | _ => trivial

structure Awaits (m : FilterManager) : Prop where
  found : ∀ id, m.worker = .picked (some id) ∨ m.worker = .selecting (some id) →
    id ∈ m.timeouts.items
  idle : m.worker = .picked none ∨ m.worker = .selecting none → m.timer = none
  woken : ∀ filterID, m.worker = .woken filterID → m.timer = none
  timer : m.timer.isSome → m.timeouts.items ≠ []
  closing : ∀ ids, m.worker = .closing ids → ∀ id ∈ ids, id ∈ m.created ∧ m.hasWSConn id = true

variable {m' : FilterManager}

theorem Awaits.mono (h : Awaits m) (hitems : ∀ id ∈ m.timeouts.items, id ∈ m'.timeouts.items)
    (htimer : m'.timer = m.timer) (hworker : ∀ w ≠ .top, m'.worker = w → m.worker = w)
    (hcreated : ∀ id ∈ m.created, id ∈ m'.created ∧ m'.hasWSConn id = m.hasWSConn id) :
    Awaits m' where
  found id hid := hitems id (h.found id (hid.imp (hworker _ nofun) (hworker _ nofun)))
  idle hid := htimer.trans (h.idle (hid.imp (hworker _ nofun) (hworker _ nofun)))
  woken filterID hw := htimer.trans (h.woken filterID (hworker _ nofun hw))
  timer hsome hnil := by
    rw [htimer] at hsome
    obtain ⟨id, hid⟩ := exists_mem_of_ne_nil _ (h.timer hsome)
    have := hitems id hid
    rw [hnil] at this
    cases this
  closing ids hw id hid := by
    obtain ⟨hmem, hconn⟩ := h.closing ids (hworker _ nofun hw) id hid
    obtain ⟨hmem', hsame⟩ := hcreated id hmem
    exact ⟨hmem', hsame.trans hconn⟩

theorem emitSignal_worker (hw : w ≠ .top) (h : m.emitSignalToUpdateCh.worker = w) :
    m.worker = w ∧ ∀ filterID, w ≠ .selecting filterID := by
  rw [emitSignalToUpdateCh] at h
  split at h
  · exact absurd h.symm hw
  · rename_i hne
    exact ⟨h, fun filterID heq ↦ hne filterID (h.trans heq)⟩

theorem Inv.removeFilterByID_conn (h : Inv m) (id other : String) :
    (m.removeFilterByID id).hasWSConn other = m.hasWSConn other :=
  (h.removeFilterByID_holds id).ws other

theorem removeFilterByID_worker (h : (m.removeFilterByID id).worker = w) (hw : w ≠ .top) :
    m.worker = w ∧ ∀ filterID, w = .selecting filterID → id ∈ m.filters →
      (m.timeouts.removeFilter id).2 = false := by
  rw [removeFilterByID] at h
  split at h
  · dsimp only at h
    split at h
    · obtain ⟨hworker, hne⟩ := emitSignal_worker hw h
      exact ⟨hworker, fun filterID heq ↦ absurd heq (hne filterID)⟩
    · rename_i hremoved
      exact ⟨h, fun _ _ _ ↦ Bool.not_eq_true _ ▸ hremoved⟩
  · exact ⟨h, fun _ _ hmem ↦ absurd hmem ‹_›⟩

theorem Awaits.removeFilterByID (h : Awaits m) (hinv : Inv m)
    (hpicked : m.worker ≠ .picked (some id)) (hlast : m.timer.isSome → m.timeouts.items ≠ [id]) : Awaits (m.removeFilterByID id) := by
  obtain ⟨hcreated, _, htimer⟩ := m.removeFilterByID_frame id
  have hholds := hinv.removeFilterByID_holds id
  by_cases hid : id ∈ m.timeouts.items
  · -- the filter leaves the heap, and a worker in its `select` is told
    have hmem := ((hinv.mem_iff id).mp hid).1
    have hremoved := (hinv.holds.removeFilter id).2.mpr hid
    rw [if_pos hmem] at hholds
    have hstay {other} (hother : other ∈ m.timeouts.items) (hne : other ≠ id) :
        other ∈ (m.removeFilterByID id).timeouts.items :=
      hholds.mem_iff.mpr (hinv.indexed.nodup.mem_erase_iff.mpr ⟨hne, hother⟩)
    refine ⟨?_, ?_, ?_, ?_, ?_⟩
    · rintro other (hw | hw)
      · obtain ⟨hw', -⟩ := removeFilterByID_worker hw nofun
        refine hstay (h.found other (.inl hw')) ?_
        rintro rfl
        exact hpicked hw'
      · obtain ⟨-, hselect⟩ := removeFilterByID_worker hw nofun
        rw [hselect _ rfl hmem] at hremoved
        cases hremoved
    · rintro (hw | hw)
      · exact htimer.trans (h.idle (.inl (removeFilterByID_worker hw nofun).1))
      · exact htimer.trans (h.idle (.inr (removeFilterByID_worker hw nofun).1))
    · intro filterID hw
      rw [htimer]
      exact h.woken filterID (removeFilterByID_worker hw nofun).1
    · intro hsome hnil
      rw [htimer] at hsome
      have herase : m.timeouts.items.erase id = [] := (hnil ▸ hholds.perm).nil_eq.symm
      have hsingle := perm_cons_erase hid
      rw [herase] at hsingle
      exact hlast hsome (perm_singleton.mp hsingle)
    · intro ids hw other hother
      rw [hcreated, hinv.removeFilterByID_conn]
      exact h.closing ids (removeFilterByID_worker hw nofun).1 other hother
  · have hsame : (m.removeFilterByID id).timeouts.Holds m.timeouts.items m.hasWSConn := by
      split at hholds
      · rwa [erase_of_not_mem hid] at hholds
      · exact hholds
    refine h.mono (fun other hother ↦ hsame.mem_iff.mpr hother) htimer
      (fun w hw heq ↦ (removeFilterByID_worker heq hw).1) fun other hother ↦ ?_
    rw [hcreated, hinv.removeFilterByID_conn]
    exact ⟨hother, rfl⟩

theorem Awaits.foldl_removeFilterByID (h : Awaits m) (hinv : Inv m) (htop : m.worker = .top)
    {ids : List String} (hids : ∀ id ∈ ids, m.hasWSConn id = true) :
    Awaits (ids.foldl FilterManager.removeFilterByID m) := by
  induction ids generalizing m with
  | nil => exact h
  | cons id ids ih =>
    have hout : id ∉ m.timeouts.items := fun hmem ↦ by
      have hconn := ((hinv.mem_iff id).mp hmem).2
      rw [hids id mem_cons_self] at hconn
      cases hconn
    have hpicked : m.worker ≠ .picked (some id) := by
      rw [htop]
      nofun
    have hnext := h.removeFilterByID hinv hpicked fun _ hsingle ↦
      hout (hsingle ▸ mem_singleton_self id)
    refine ih hnext (hinv.removeFilterByID id) ?_ fun other hother ↦ ?_
    · by_contra hne
      exact hne ((removeFilterByID_worker rfl hne).1.symm.trans htop)
    · rw [hinv.removeFilterByID_conn]
      exact hids other (mem_cons_of_mem id hother)

theorem awaits_newFilterManager : Awaits newFilterManager where
  found _ := by rintro (h | h) <;> cases h
  idle _ := rfl
  woken _ _ := rfl
  timer := nofun
  closing _ := nofun

theorem addFilter_worker (h : (m.addFilter id ws now).worker = w) (hw : w ≠ .top) :
    m.worker = w := by
  cases ws with
  | true => exact h
  | false => exact (emitSignal_worker hw h).1

section

variable (h : Awaits m)
include h

theorem Awaits.addFilter (hinv : Inv m) (hid : id ∉ m.created) (ws : Bool)
    (now : ℕ) : Awaits (m.addFilter id ws now) := by
  have hholds := hinv.addFilter_holds hid ws now
  refine h.mono (fun other hother ↦ ?_) (by cases ws <;> rfl)
    (fun w hw heq ↦ addFilter_worker heq hw) fun other hother ↦ ⟨?_, ?_⟩
  · rw [hholds.mem_iff]
    split
    · exact hother
    · exact mem_append_left _ hother
  · cases ws <;> exact mem_cons_of_mem id hother
  · have hne : other ≠ id := fun heq ↦ hid (heq ▸ hother)
    exact (hholds.ws other).trans (update_of_ne hne _ _)

theorem Awaits.refresh (hinv : Inv m) (id : String) (now : ℕ) :
    Awaits (m.refreshFilterTimeout id now) := by
  have hholds := hinv.refresh_holds id now
  refine h.mono (fun other hother ↦ ?_) rfl (fun w hw heq ↦ (emitSignal_worker hw heq).1)
    fun other hother ↦ ⟨hother, hholds.ws other⟩
  rw [hholds.mem_iff, mem_append, mem_singleton, hinv.indexed.nodup.mem_erase_iff]
  by_cases heq : other = id
  · exact .inr heq
  · exact .inl ⟨heq, hother⟩

theorem Awaits.setWorker (worker : Worker)
    (hworker : worker = .top ∨ worker = .dispatching ∨ worker = .stopped) :
    Awaits { m with worker } where
  found _ hw := by rcases hworker with rfl | rfl | rfl <;> rcases hw with hw | hw <;> cases hw
  idle hw := by rcases hworker with rfl | rfl | rfl <;> rcases hw with hw | hw <;> cases hw
  woken _ hw := by rcases hworker with rfl | rfl | rfl <;> cases hw
  timer := h.timer
  closing _ hw := by rcases hworker with rfl | rfl | rfl <;> cases hw

theorem Awaits.nextTimeout : Awaits (m.step .nextTimeout) := by
  rw [step]
  split
  · rename_i id _ hhead
    have hmem : id ∈ m.timeouts.items := mem_of_mem_head? hhead
    refine ⟨?_, ?_, nofun, fun _ ↦ ne_nil_of_mem hmem, nofun⟩
    · rintro other (hw | hw) <;> cases hw
      exact hmem
    · rintro (hw | hw) <;> cases hw
  · rename_i _ hhead
    have htimer : m.timer = none := by
      by_contra hne
      exact h.timer (Option.isSome_iff_ne_none.mpr hne) (List.head?_eq_none_iff.mp hhead)
    refine ⟨?_, fun _ ↦ htimer, nofun, h.timer, nofun⟩
    rintro other (hw | hw) <;> cases hw
  · exact h

theorem Awaits.flushWsFilters (hinv : Inv m) (broken : List String) :
    Awaits (m.step (.flushWsFilters broken)) := by
  rw [step]
  split
  · refine ⟨?_, ?_, nofun, h.timer, ?_⟩
    · rintro id (hw | hw) <;> cases hw
    · rintro (hw | hw) <;> cases hw
    · intro ids hw id hid
      cases hw
      obtain ⟨hmem, hconn⟩ := mem_filter.mp hid
      rw [Bool.and_eq_true] at hconn
      exact ⟨hinv.filters_created id hmem, hconn.1⟩
  · exact h

theorem Awaits.step (hinv : Inv m) (a : Section)
    (hremove : RemovesUnawaited m a) : Awaits (m.step a) := by
  cases a with
  | newFilter id ws now =>
    rw [FilterManager.step]
    split
    · exact h
    · exact h.addFilter hinv ‹_› ws now
  | getFilterAndChanges id =>
    rw [FilterManager.step]
    split
    · exact ⟨h.found, h.idle, h.woken, h.timer, h.closing⟩
    · exact h
  | refresh id now =>
    rw [FilterManager.step]
    split
    · have hawaits : Awaits { m with reading := m.reading.erase id } :=
        ⟨h.found, h.idle, h.woken, h.timer, h.closing⟩
      exact hawaits.refresh (hinv.eraseReading id) id now
    · exact h
  | uninstall id | removeFilterByWs id => exact h.removeFilterByID hinv hremove.1 hremove.2
  | nextTimeout => exact h.nextTimeout
  | park =>
    rw [FilterManager.step]
    split
    · rename_i filterID hw
      refine ⟨?_, ?_, nofun, h.timer, nofun⟩
      · rintro id (hw' | hw') <;> cases hw'
        exact h.found id (.inl hw)
      · rintro (hw' | hw') <;> cases hw'
        exact h.idle (.inl hw)
    · exact h
  | fire =>
    rw [FilterManager.step]
    split
    · refine ⟨?_, fun _ ↦ rfl, fun _ _ ↦ rfl, nofun, nofun⟩
      rintro id (hw | hw) <;> cases hw
    · exact h
  | expire =>
    rw [FilterManager.step]
    split
    · rename_i id hw
      have htop := h.setWorker .top (.inl rfl)
      refine htop.removeFilterByID (hinv.setWorker _) nofun fun hsome ↦ ?_
      rw [h.woken _ hw] at hsome
      cases hsome
    · exact h.setWorker _ (.inl rfl)
    · exact h
  | dispatchEvent =>
    rw [FilterManager.step]
    split
    · exact h.setWorker _ (.inr (.inl rfl))
    · exact h
  | flushWsFilters broken => exact h.flushWsFilters hinv broken
  | removeClosed =>
    rw [FilterManager.step]
    split
    · rename_i ids hw
      refine (h.setWorker .top (.inl rfl)).foldl_removeFilterByID (hinv.setWorker _) rfl ?_
      exact fun id hid ↦ (h.closing ids hw id hid).2
    · exact h
  | close =>
    rw [FilterManager.step]
    split
    · exact h.setWorker _ (.inr (.inr rfl))
    · exact h

end

/-- Over every interleaving the heap is exact as long as each refreshed filter is still installed,
and at the first refresh of one that is not it stops to be; the worker then only finds installed
filters. It also wakes up for installed filters only, as long as no client removes a filter behind
its back. -/
theorem timeouts_exact_iff (as : List Section)
    (has : Run.Admits step RefreshesInstalled newFilterManager as) :
    let m := Run.exec step newFilterManager as
    TimeoutsExact m ∧ (∀ id ∉ m.filters, id ∉ m.timeouts.items) ∧
      (∀ id, m.nextTimeoutFilter = some id → id ∈ m.filters) ∧
      (∀ a, TimeoutsExact (m.step a) ↔ RefreshesInstalled m a) ∧
      (Run.Admits step RemovesUnawaited newFilterManager as →
        ∀ filterID, m.worker = .selecting filterID → m.timer.isSome →
          ∃ id ∈ m.filters, filterID = some id) := by
  intro m
  have hinv : Inv m := has.invariant inv_newFilterManager fun m a h ↦ h.step a
  refine ⟨hinv.exact, fun id hid hmem ↦ hid ((hinv.mem_iff id).mp hmem).1, fun id hid ↦ ?_,
    hinv.exact_step_iff, fun hremoves filterID hw htimer ↦ ?_⟩
  · exact ((hinv.mem_iff id).mp (mem_of_mem_head? hid)).1
  · obtain ⟨-, hawaits⟩ : Inv m ∧ Awaits m :=
      (has.and hremoves).invariant (I := fun m ↦ Inv m ∧ Awaits m)
        ⟨inv_newFilterManager, awaits_newFilterManager⟩
        fun m a h hok ↦ ⟨h.1.step a hok.1, h.2.step h.1 a hok.2⟩
    cases filterID with
    | none =>
      rw [hawaits.idle (.inr hw)] at htimer
      cases htimer
    | some id =>
      exact ⟨id, ((hinv.mem_iff id).mp (hawaits.found id (.inr hw))).1, rfl⟩

theorem timeouts_exact_iff_polled :
    let m := Run.exec step newFilterManager
      [.newFilter "a" false 0, .newFilter "b" false 1, .getFilterAndChanges "a", .refresh "a" 2]
    TimeoutsExact m ∧ m.timeouts.items = ["b", "a"] := by
  refine ⟨(timeouts_exact_iff _ ?_).1, by decide +kernel⟩
  exact ⟨trivial, trivial, trivial, fun _ ↦ by decide +kernel, trivial⟩

/-- A filter is removed between the two sections of a call of `GetFilterChanges`: it is in the heap
without being installed, the worker waits and wakes up for it, and it is still in the heap when
the worker is back at the top of its loop. -/
theorem uninstalled_filter_in_heap :
    let m := Run.exec step newFilterManager
      [.newFilter "a" false 0, .getFilterAndChanges "a", .uninstall "a", .refresh "a" 1]
    let woken := Run.exec step m [.nextTimeout, .park, .fire]
    let again := step woken .expire
    m.filters = [] ∧ m.timeouts.items = ["a"] ∧
      woken.filters = [] ∧ woken.worker = .woken (some "a") ∧
        again.timeouts.items = ["a"] ∧ again.worker = .top := by
  decide +kernel

end FilterManager

end Mainnet.Jsonrpc
