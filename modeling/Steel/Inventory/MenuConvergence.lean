import Steel.Inventory.MenuSync

/-! # The client's view converges

Every belief of the server is true of what the client shows, through all changes, reports and
suppressed sections.
-/

namespace Steel

open Function (update_apply update_of_ne update)

open List

variable {C V H : Type} {n m : ℕ}

/-- What can happen to a menu and its client. A client that shows a change of its own reports
it, or the server forgets what the client has. -/
inductive SyncOp (C V H : Type) (n : ℕ) where
  | changeSlots (items : Fin n → PatchedStack C V)
  | changeCarried (carried : PatchedStack C V)
  | setData (index : ℕ) (value : Int16)
  | predictSlot (slot : ℕ) (shown : PatchedStack C V) (hash : HashedStack H)
  | predictCarried (shown : PatchedStack C V) (hash : HashedStack H)
  | markRemoteSlotUnknown (slot : ℕ) (shown : PatchedStack C V)
  | suppressRemoteUpdates
  | resumeRemoteUpdates
  | sendAllDataToRemote
  | broadcastChanges

def SyncOp.Exact (registry : ComponentRegistry C V) (hashing : ComponentHashing C V H) :
    SyncOp C V H n → Prop
  | .predictSlot _ shown hash => hash.IsHashOf registry hashing shown
  | .predictCarried shown hash => hash.IsHashOf registry hashing shown
  | _ => True

namespace MenuSession

def predict (t : MenuSession C V H n m) (slot : Fin n) (shown : PatchedStack C V) :
    MenuSession C V H n m :=
  { t with client := { t.client with slots := update t.client.slots slot shown } }

section Step

variable [Fintype C] [DecidableEq V] [DecidableEq H]
  (registry : ComponentRegistry C V) (hashing : ComponentHashing C V H)

def step (t : MenuSession C V H n m) : SyncOp C V H n → MenuSession C V H n m
  | .changeSlots items => { t with menu := { t.menu with items := items } }
  | .changeCarried carried => { t with menu := { t.menu with carried := carried } }
  | .setData index value =>
    if h : index < m then
      { t with menu := { t.menu with
          dataSlots := update t.menu.dataSlots ⟨index, h⟩ value } }
    else t
  | .predictSlot slot shown hash =>
    if h : slot < n then (t.predict ⟨slot, h⟩ shown).setRemoteSlot ⟨slot, h⟩ (.hashed hash) else t
  | .predictCarried shown hash =>
    { t with client := { t.client with carried := shown } }.setRemoteCarried (.hashed hash)
  | .markRemoteSlotUnknown slot shown =>
    if h : slot < n then (t.predict ⟨slot, h⟩ shown).setRemoteSlot ⟨slot, h⟩ .unknown else t
  | .suppressRemoteUpdates => { t with menu := { t.menu with suppressRemoteUpdates := true } }
  | .resumeRemoteUpdates => { t with menu := { t.menu with suppressRemoteUpdates := false } }
  | .sendAllDataToRemote => t.sendAllDataToRemote
  | .broadcastChanges => t.broadcastChanges registry hashing

end Step

end MenuSession

def RemoteSlot.Believes (registry : ComponentRegistry C V) (hashing : ComponentHashing C V H)
    (remote : RemoteSlot C V H) (shown : PatchedStack C V) : Prop :=
  match remote with
  | .unknown => True
  | .known stack => shown.Matches registry stack
  | .hashed hash => hash.IsHashOf registry hashing shown

variable {registry : ComponentRegistry C V} {hashing : ComponentHashing C V H}

variable {remote : RemoteSlot C V H}

theorem RemoteSlot.Believes.matches_of_matches [Fintype C] [DecidableEq H]
    {shown stack : PatchedStack C V} (h : remote.Believes registry hashing shown)
    (hmatches : remote.Matches registry hashing stack) :
    shown.Matches registry stack := by
  cases remote with
  | unknown => cases hmatches
  | known believed => exact PatchedStack.Matches.trans h hmatches
  | hashed hash => exact h.matches_of_hashed hmatches

namespace MenuSession

/-- Everything that the server believes about the client is true. -/
structure Believed (registry : ComponentRegistry C V) (hashing : ComponentHashing C V H)
    (t : MenuSession C V H n m) : Prop where
  slots : ∀ i, (t.menu.remoteSlots i).Believes registry hashing (t.client.slots i)
  carried : t.menu.remoteCarried.Believes registry hashing t.client.carried
  data : ∀ i, t.menu.remoteDataSlots i = t.client.data i
  packetId_eq : t.packetId = t.client.containerId

/-- The client shows what the server has. -/
structure Synced (registry : ComponentRegistry C V) (t : MenuSession C V H n m) : Prop where
  slots : ∀ i, (t.client.slots i).Matches registry (t.menu.items i)
  carried : t.client.carried.Matches registry t.menu.carried
  data : ∀ i, t.client.data i = t.menu.dataSlots i

/-- The server's own state is the same, its beliefs are true, and what the client had right is
still right. -/
structure Advances (registry : ComponentRegistry C V) (hashing : ComponentHashing C V H)
    (t u : MenuSession C V H n m) : Prop where
  believed : u.Believed registry hashing
  items_eq : u.menu.items = t.menu.items
  carried_eq : u.menu.carried = t.menu.carried
  dataSlots_eq : u.menu.dataSlots = t.menu.dataSlots
  suppress_eq : u.menu.suppressRemoteUpdates = t.menu.suppressRemoteUpdates
  slots : ∀ i, (t.client.slots i).Matches registry (t.menu.items i) →
    (u.client.slots i).Matches registry (t.menu.items i)
  carried : t.client.carried.Matches registry t.menu.carried →
    u.client.carried.Matches registry t.menu.carried
  data : ∀ i, t.client.data i = t.menu.dataSlots i → u.client.data i = t.menu.dataSlots i

variable {t u v : MenuSession C V H n m}

theorem Advances.refl (h : t.Believed registry hashing) : Advances registry hashing t t :=
  ⟨h, rfl, rfl, rfl, rfl, fun _ h => h, fun h => h, fun _ h => h⟩

theorem Advances.trans (h : Advances registry hashing t u) (h' : Advances registry hashing u v) :
    Advances registry hashing t v where
  believed := h'.believed
  items_eq := h'.items_eq.trans h.items_eq
  carried_eq := h'.carried_eq.trans h.carried_eq
  dataSlots_eq := h'.dataSlots_eq.trans h.dataSlots_eq
  suppress_eq := h'.suppress_eq.trans h.suppress_eq
  slots i hi := h.items_eq ▸ h'.slots i (h.items_eq ▸ h.slots i hi)
  carried hc := h.carried_eq ▸ h'.carried (h.carried_eq ▸ h.carried hc)
  data i hi := h.dataSlots_eq ▸ h'.data i (h.dataSlots_eq ▸ h.data i hi)

theorem toInt_ofNat_eq_iff (hn : n ≤ 2 ^ 15) {i j : Fin n} :
    (Int16.ofNat i).toInt = (j : ℤ) ↔ j = i := by
  have hsize : Int16.size = 65536 := rfl
  have hvalue : (Int16.ofNat i).toInt = (i : ℤ) := by
    rw [Int16.toInt_ofNat', hsize, Int.bmod]
    omega
  omega

theorem synchronizeSlotToRemote_eq (hsuppress : t.menu.suppressRemoteUpdates = false)
    (hid : t.packetId = t.client.containerId) (slot : Fin n) (item : PatchedStack C V) :
    t.synchronizeSlotToRemote slot item =
      ⟨{ t.menu with
          stateId := t.incrementStateId.menu.stateId
          remoteSlots := update t.menu.remoteSlots slot (.known item) },
        { t.client with
          stateId := t.incrementStateId.menu.stateId.toNat
          slots := update t.client.slots slot item }⟩ := by
  have hslots : (fun i : Fin n => if (Int16.ofNat slot).toInt = (i : ℤ) then item
      else t.client.slots i) = update t.client.slots slot item := by
    funext i
    simp only [toInt_ofNat_eq_iff t.menu.slots_le, update_apply]
  have hid' : t.incrementStateId.packetId = t.incrementStateId.client.containerId := hid
  unfold synchronizeSlotToRemote
  rw [hsuppress, ← hslots]
  simp only [Bool.false_eq_true, if_false, sendPacket, ClientMenu.receive, setRemoteSlot]
  rw [if_pos hid']
  rfl

theorem sendData_eq (hid : t.packetId = t.client.containerId) (index : Fin m) :
    t.sendData index =
      ⟨{ t.menu with
          remoteDataSlots :=
            update t.menu.remoteDataSlots index (t.menu.dataSlots index) },
        { t.client with
          data := update t.client.data index (t.menu.dataSlots index) }⟩ := by
  have hdata : (fun i : Fin m => if (Int16.ofNat index).toInt = (i : ℤ) then
      t.menu.dataSlots index else t.client.data i) =
      update t.client.data index (t.menu.dataSlots index) := by
    funext i
    simp only [toInt_ofNat_eq_iff t.menu.data_le, update_apply]
  have hid' : (t.setRemoteData index (t.menu.dataSlots index)).packetId =
      (t.setRemoteData index (t.menu.dataSlots index)).client.containerId := hid
  rw [← hdata]
  simp only [sendData, sendPacket, ClientMenu.receive]
  rw [if_pos hid']
  rfl

theorem believes_update {remotes : Fin n → RemoteSlot C V H} {shown : Fin n → PatchedStack C V}
    (h : ∀ i, (remotes i).Believes registry hashing (shown i)) (slot : Fin n)
    {stack : PatchedStack C V} (hslot : remote.Believes registry hashing stack) (i : Fin n) :
    (update remotes slot remote i).Believes registry hashing
      (update shown slot stack i) := by
  by_cases hi : i = slot
  · subst hi
    simpa using hslot
  · simpa [update_of_ne hi] using h i

section

variable (h : t.Believed registry hashing)

include h

theorem Believed.advances_synchronizeSlot (slot : Fin n) :
    Advances registry hashing t (t.synchronizeSlotToRemote slot (t.menu.items slot)) ∧
      (t.menu.suppressRemoteUpdates = false →
        ((t.synchronizeSlotToRemote slot (t.menu.items slot)).client.slots slot).Matches registry
          (t.menu.items slot)) := by
  cases hsuppress : t.menu.suppressRemoteUpdates with
  | true =>
    have heq : t.synchronizeSlotToRemote slot (t.menu.items slot) = t := by
      rw [synchronizeSlotToRemote, hsuppress, if_pos rfl]
    rw [heq]
    exact ⟨.refl h, fun h => nomatch h⟩
  | false =>
    rw [synchronizeSlotToRemote_eq hsuppress h.packetId_eq]
    constructor
    · refine ⟨⟨believes_update h.slots slot (.refl _), h.carried, h.data, h.packetId_eq⟩,
        rfl, rfl, rfl, rfl, ?_, fun h => h, fun _ h => h⟩
      intro i hi
      by_cases hslot : i = slot
      · subst hslot
        simpa using PatchedStack.Matches.refl _
      · simpa [update_of_ne hslot] using hi
    · intro _
      simpa using PatchedStack.Matches.refl _

theorem Believed.advances_sendData (index : Fin m) :
    Advances registry hashing t (t.sendData index) ∧
      (t.sendData index).client.data index = t.menu.dataSlots index := by
  rw [sendData_eq h.packetId_eq]
  constructor
  · refine ⟨⟨h.slots, h.carried, ?_, h.packetId_eq⟩, rfl, rfl, rfl, rfl, fun _ h => h,
      fun h => h, ?_⟩
    · intro i
      by_cases hi : i = index
      · subst hi
        simp
      · simpa [update_of_ne hi] using h.data i
    · intro i hdata
      by_cases hi : i = index
      · subst hi
        simp
      · simpa [update_of_ne hi] using hdata
  · simp

theorem Believed.advances_synchronizeData (index : Fin m) :
    Advances registry hashing t (t.synchronizeDataSlotToRemote index) ∧
      (t.menu.suppressRemoteUpdates = false →
        (t.synchronizeDataSlotToRemote index).client.data index = t.menu.dataSlots index) := by
  unfold synchronizeDataSlotToRemote
  split_ifs with hsuppress hdiffers
  · exact ⟨.refl h, fun hfalse => by rw [hsuppress] at hfalse; cases hfalse⟩
  · obtain ⟨hadvances, hdata⟩ := h.advances_sendData index
    exact ⟨hadvances, fun _ => hdata⟩
  · rw [ne_eq, not_not] at hdiffers
    exact ⟨.refl h, fun _ => by rw [hdiffers, h.data]⟩

end

variable {s : MenuSession C V H n m}

/-- Steps that advance one after the other, each with a goal that later steps keep. -/
theorem advances_foldl {ι : Type} {f : MenuSession C V H n m → ι → MenuSession C V H n m}
    {P : ι → MenuSession C V H n m → Prop}
    (hkeep : ∀ t u i, Advances registry hashing t u → P i t → P i u) (is : List ι)
    (hstep : ∀ t, Advances registry hashing s t → ∀ i ∈ is, Advances registry hashing t (f t i) ∧
      (s.menu.suppressRemoteUpdates = false → P i (f t i))) :
    ∀ t, Advances registry hashing s t → Advances registry hashing t (is.foldl f t) ∧
      (s.menu.suppressRemoteUpdates = false → ∀ i ∈ is, P i (is.foldl f t)) := by
  induction is with
  | nil =>
    intro t ht
    exact ⟨.refl ht.believed, fun _ i hi => nomatch hi⟩
  | cons i is ih =>
    intro t ht
    obtain ⟨hadvances, hP⟩ := hstep t ht i mem_cons_self
    obtain ⟨hrest, hPs⟩ := ih (fun t ht j hj => hstep t ht j (mem_cons_of_mem i hj)) (f t i)
      (ht.trans hadvances)
    refine ⟨hadvances.trans hrest, ?_⟩
    intro hsuppress j hj
    rcases mem_cons.mp hj with rfl | hj
    · exact hkeep _ _ j hrest (hP hsuppress)
    · exact hPs hsuppress j hj

def SlotSynced (registry : ComponentRegistry C V) (i : Fin n) (t : MenuSession C V H n m) : Prop :=
  (t.client.slots i).Matches registry (t.menu.items i)

theorem SlotSynced.advance {i : Fin n} (hadvances : Advances registry hashing t u)
    (h : SlotSynced registry i t) : SlotSynced registry i u := by
  unfold SlotSynced
  rw [hadvances.items_eq]
  exact hadvances.slots i h

theorem advances_synchronizeSlots (changed : List (Fin n × PatchedStack C V))
    (hchanged : ∀ entry ∈ changed, entry.2 = s.menu.items entry.1)
    (ht : Advances registry hashing s t) :
    Advances registry hashing t
        (changed.foldl (fun t entry => t.synchronizeSlotToRemote entry.1 entry.2) t) ∧
      (s.menu.suppressRemoteUpdates = false → ∀ entry ∈ changed, SlotSynced registry entry.1
        (changed.foldl (fun t entry => t.synchronizeSlotToRemote entry.1 entry.2) t)) := by
  apply advances_foldl (P := fun entry t => SlotSynced registry entry.1 t) _ changed _ t ht
  · exact fun t u entry hadvances h => h.advance hadvances
  · intro t ht entry hentry
    obtain ⟨hadvances, hsynced⟩ := ht.believed.advances_synchronizeSlot entry.1
    rw [ht.items_eq, ← hchanged entry hentry] at hadvances hsynced
    refine ⟨hadvances, fun hsuppress => ?_⟩
    unfold SlotSynced
    rw [hadvances.items_eq, ht.items_eq, ← hchanged entry hentry]
    exact hsynced (ht.suppress_eq.trans hsuppress)

theorem advances_synchronizeDataSlots (ht : Advances registry hashing s t) :
    Advances registry hashing t ((List.finRange m).foldl synchronizeDataSlotToRemote t) ∧
      (s.menu.suppressRemoteUpdates = false → ∀ i,
        ((List.finRange m).foldl synchronizeDataSlotToRemote t).client.data i =
          ((List.finRange m).foldl synchronizeDataSlotToRemote t).menu.dataSlots i) := by
  have hfold := advances_foldl (f := synchronizeDataSlotToRemote)
    (P := fun i t => t.client.data i = t.menu.dataSlots i) (s := s)
    (fun t u i hadvances h => by rw [hadvances.dataSlots_eq]; exact hadvances.data i h)
    (List.finRange m) (fun t ht i _ => ?_) t ht
  · exact ⟨hfold.1, fun hsuppress i => hfold.2 hsuppress i (mem_finRange i)⟩
  · obtain ⟨hadvances, hdata⟩ := ht.believed.advances_synchronizeData i
    refine ⟨hadvances, fun hsuppress => ?_⟩
    rw [hadvances.dataSlots_eq]
    exact hdata (ht.suppress_eq.trans hsuppress)

section Broadcast

variable [Fintype C] [DecidableEq H]

theorem Believed.advances_noticeSlot (h : t.Believed registry hashing) {index : Fin n}
    (hmatches : (t.menu.remoteSlots index).Matches registry hashing (t.menu.items index)) :
    Advances registry hashing t (t.noticeSlot index) ∧ (t.noticeSlot index).client = t.client := by
  have hshown : (RemoteSlot.known (t.menu.items index)).Believes registry hashing
      (t.client.slots index) := (h.slots index).matches_of_matches hmatches
  unfold noticeSlot
  split
  · have hslots := believes_update h.slots index hshown
    rw [Function.update_eq_self] at hslots
    exact ⟨⟨⟨hslots, h.carried, h.data, h.packetId_eq⟩, rfl, rfl, rfl, rfl, fun _ h => h,
      fun h => h, fun _ h => h⟩, rfl⟩
  · exact ⟨.refl h, rfl⟩

variable [DecidableEq V]

theorem advances_collectChanged (indices : List (Fin n)) :
    ∀ t : MenuSession C V H n m, t.Believed registry hashing →
    Advances registry hashing t (t.collectChanged registry hashing indices).1 ∧
      (t.collectChanged registry hashing indices).1.client = t.client ∧
      (∀ entry ∈ (t.collectChanged registry hashing indices).2,
        entry.2 = t.menu.items entry.1) ∧
      ∀ i ∈ indices, SlotSynced registry i t ∨
        (i, t.menu.items i) ∈ (t.collectChanged registry hashing indices).2 := by
  induction indices with
  | nil =>
    intro t ht
    exact ⟨.refl ht, rfl, (fun entry h => nomatch h), (fun i h => nomatch h)⟩
  | cons index indices ih =>
    intro t ht
    unfold collectChanged
    split_ifs with hmatches
    · obtain ⟨hnotice, hclient⟩ := ht.advances_noticeSlot hmatches
      obtain ⟨hadvances, hclient', hentries, hindices⟩ := ih (t.noticeSlot index) hnotice.believed
      refine ⟨hnotice.trans hadvances, hclient'.trans hclient, ?_, ?_⟩
      · rw [← hnotice.items_eq]
        exact hentries
      · intro i hi
        rcases mem_cons.mp hi with rfl | hi
        · exact .inl ((ht.slots i).matches_of_matches hmatches)
        · have hsynced := hindices i hi
          unfold SlotSynced at hsynced ⊢
          rwa [hnotice.items_eq, hclient] at hsynced
    · obtain ⟨hadvances, hclient, hentries, hindices⟩ := ih t ht
      refine ⟨hadvances, hclient, ?_, ?_⟩
      · intro entry hentry
        rcases mem_cons.mp hentry with rfl | hentry
        · rfl
        · exact hentries entry hentry
      · intro i hi
        rcases mem_cons.mp hi with rfl | hi
        · exact .inr mem_cons_self
        · exact (hindices i hi).imp_right (mem_cons_of_mem _)

theorem Believed.advances_broadcastCarried (h : t.Believed registry hashing) :
    Advances registry hashing t (t.broadcastCarried registry hashing) ∧
      (t.menu.suppressRemoteUpdates = false →
        (t.broadcastCarried registry hashing).client.carried.Matches registry t.menu.carried) := by
  unfold broadcastCarried
  split_ifs with hmatches
  · have hshown := h.carried.matches_of_matches hmatches
    split
    · exact ⟨⟨⟨h.slots, hshown, h.data, h.packetId_eq⟩, rfl, rfl, rfl, rfl, fun _ h => h,
        fun h => h, fun _ h => h⟩, fun _ => hshown⟩
    · exact ⟨.refl h, fun _ => hshown⟩
  · unfold synchronizeCarriedToRemote
    split_ifs with hsuppress
    · exact ⟨.refl h, fun hfalse => by rw [hsuppress] at hfalse; cases hfalse⟩
    · exact ⟨⟨⟨h.slots, .refl _, h.data, h.packetId_eq⟩, rfl, rfl, rfl, rfl, fun _ h => h,
        fun _ => .refl _, fun _ h => h⟩, fun _ => .refl _⟩

/-- A broadcast keeps the beliefs true. Unless it is suppressed, the client shows what the
server has. -/
theorem Believed.advances_broadcastChanges (h : t.Believed registry hashing) :
    Advances registry hashing t (t.broadcastChanges registry hashing) ∧
      (t.menu.suppressRemoteUpdates = false →
        (t.broadcastChanges registry hashing).Synced registry) := by
  obtain ⟨hcollect, hclient, hentries, hindices⟩ := advances_collectChanged (List.finRange n) t h
  obtain ⟨hslots, hsynced⟩ := advances_synchronizeSlots _ hentries hcollect
  generalize hu : (t.collectChanged registry hashing (List.finRange n)).2.foldl
    (fun t entry => t.synchronizeSlotToRemote entry.1 entry.2)
    (t.collectChanged registry hashing (List.finRange n)).1 = u at hslots hsynced
  have htu := hcollect.trans hslots
  obtain ⟨hcarried, hsynced'⟩ := hslots.believed.advances_broadcastCarried
  obtain ⟨hdata, hsynced''⟩ := advances_synchronizeDataSlots (htu.trans hcarried)
  have heq : t.broadcastChanges registry hashing =
      (List.finRange m).foldl synchronizeDataSlotToRemote
      (u.broadcastCarried registry hashing) := by
    rw [← hu]
    rfl
  rw [heq]
  refine ⟨(htu.trans hcarried).trans hdata, fun hsuppress => ⟨?_, ?_, hsynced'' hsuppress⟩⟩
  · intro i
    have hi : SlotSynced registry i u := by
      rcases hindices i (mem_finRange i) with hi | hi
      · exact hi.advance htu
      · exact hsynced hsuppress _ hi
    exact hi.advance (hcarried.trans hdata)
  · have hshown := hsynced' (htu.suppress_eq.trans hsuppress)
    rw [← hcarried.carried_eq] at hshown
    have hshown' := hdata.carried hshown
    rw [← hdata.carried_eq] at hshown'
    exact hshown'

end Broadcast

section SendAll

theorem foldl_setRemoteSlot (is : List (Fin n)) :
    ∀ t : MenuSession C V H n m,
    is.foldl (fun t i => t.setRemoteSlot i (.known (t.menu.items i))) t =
      { t with menu := { t.menu with
          remoteSlots := fun i =>
            if i ∈ is then .known (t.menu.items i) else t.menu.remoteSlots i } } := by
  induction is with
  | nil =>
    simp
  | cons index is ih =>
    intro t
    have hslots : (fun i => if i ∈ is then RemoteSlot.known (t.menu.items i) else
        update t.menu.remoteSlots index (.known (t.menu.items index)) i) =
        fun i => if i ∈ index :: is then .known (t.menu.items i) else t.menu.remoteSlots i := by
      funext i
      by_cases hi : i = index
      · subst hi
        simp
      · simp [hi]
    rw [foldl_cons, ih]
    simp only [setRemoteSlot, hslots]

theorem sendContent_eq (hid : t.packetId = t.client.containerId) :
    t.sendContent =
      ⟨{ t.menu with
          stateId := t.incrementStateId.menu.stateId
          remoteSlots := fun i => .known (t.menu.items i)
          remoteCarried := .known t.menu.carried },
        { t.client with
          stateId := t.incrementStateId.menu.stateId.toNat
          slots := t.menu.items
          carried := t.menu.carried }⟩ := by
  have hslots : (fun i : Fin n => (List.ofFn t.menu.items).getD i (t.client.slots i)) =
      t.menu.items := by
    funext i
    simp [List.getD]
  unfold sendContent
  simp only [foldl_setRemoteSlot, mem_finRange, if_true, sendPacket, ClientMenu.receive]
  rw [if_pos]
  · exact congrArg (fun slots => MenuSession.mk _ { t.client with
      stateId := t.incrementStateId.menu.stateId.toNat
      slots := slots
      carried := t.menu.carried }) hslots
  · exact hid

/-- Sending everything brings the client up to date, even if updates are suppressed. -/
theorem Believed.advances_sendAll (h : t.Believed registry hashing) :
    Advances registry hashing t t.sendAllDataToRemote := by
  have hcontent : Advances registry hashing t t.sendContent := by
    rw [sendContent_eq h.packetId_eq]
    exact ⟨⟨fun _ => .refl _, .refl _, h.data, h.packetId_eq⟩, rfl, rfl, rfl, rfl,
      fun _ _ => .refl _,
      fun _ => .refl _, fun _ h => h⟩
  have hdata := advances_foldl (f := sendData) (P := fun _ _ => True) (s := t)
    (fun _ _ _ _ h => h) (List.finRange m)
    (fun u hu i _ => ⟨(hu.believed.advances_sendData i).1, fun _ => trivial⟩) t.sendContent hcontent
  exact hcontent.trans hdata.1

end SendAll

/-- A menu that was just built, and a client that just opened it. -/
structure IsNew (t : MenuSession C V H n m) : Prop where
  remoteSlots : ∀ i, t.menu.remoteSlots i = .unknown
  remoteCarried : t.menu.remoteCarried = .unknown
  remoteDataSlots : ∀ i, t.menu.remoteDataSlots i = 0
  data : ∀ i, t.client.data i = 0
  packetId_eq : t.packetId = t.client.containerId

theorem IsNew.believed (h : t.IsNew) : t.Believed registry hashing where
  slots i := by
    rw [h.remoteSlots]
    trivial
  carried := by
    rw [h.remoteCarried]
    trivial
  data i := by rw [h.remoteDataSlots, h.data]
  packetId_eq := h.packetId_eq

section Run

variable [Fintype C] [DecidableEq V] [DecidableEq H]

theorem Believed.step (h : t.Believed registry hashing) {op : SyncOp C V H n}
    (hexact : op.Exact registry hashing) :
    (t.step registry hashing op).Believed registry hashing := by
  cases op with
  | changeSlots items => exact ⟨h.slots, h.carried, h.data, h.packetId_eq⟩
  | changeCarried carried => exact ⟨h.slots, h.carried, h.data, h.packetId_eq⟩
  | setData index value =>
    simp only [MenuSession.step]
    split_ifs
    · exact ⟨h.slots, h.carried, h.data, h.packetId_eq⟩
    · exact h
  | predictSlot slot shown hash =>
    simp only [MenuSession.step]
    split_ifs with hslot
    · exact ⟨believes_update h.slots ⟨slot, hslot⟩ hexact, h.carried, h.data, h.packetId_eq⟩
    · exact h
  | predictCarried shown hash => exact ⟨h.slots, hexact, h.data, h.packetId_eq⟩
  | markRemoteSlotUnknown slot shown =>
    simp only [MenuSession.step]
    split_ifs with hslot
    · exact ⟨believes_update h.slots ⟨slot, hslot⟩ trivial, h.carried, h.data, h.packetId_eq⟩
    · exact h
  | suppressRemoteUpdates => exact ⟨h.slots, h.carried, h.data, h.packetId_eq⟩
  | resumeRemoteUpdates => exact ⟨h.slots, h.carried, h.data, h.packetId_eq⟩
  | sendAllDataToRemote => exact h.advances_sendAll.believed
  | broadcastChanges => exact h.advances_broadcastChanges.1.believed

theorem believed_run (hnew : t.IsNew) {ops : List (SyncOp C V H n)}
    (hexact : ∀ op ∈ ops, op.Exact registry hashing) :
    (runSteps (MenuSession.step registry hashing) t ops).Believed registry hashing :=
  Guarded.invariant (I := Believed registry hashing)
    (fun _ _ h hexact => h.step hexact)
    (guarded_of_forall fun op hop _ => hexact op hop) hnew.believed

theorem Believed.client_broadcastChanges (h : t.Believed registry hashing)
    (hsuppress : t.menu.suppressRemoteUpdates = true) :
    (t.broadcastChanges registry hashing).client = t.client := by
  obtain ⟨hcollect, hclient, -, -⟩ := advances_collectChanged (List.finRange n) t h
  generalize hu : (t.collectChanged registry hashing (List.finRange n)).1 = u at hcollect hclient
  have hsuppress' : u.menu.suppressRemoteUpdates = true := hcollect.suppress_eq.trans hsuppress
  obtain ⟨hcarried, -⟩ := hcollect.believed.advances_broadcastCarried
  have hslots : (t.collectChanged registry hashing (List.finRange n)).2.foldl
      (fun t entry => t.synchronizeSlotToRemote entry.1 entry.2) u = u := by
    apply foldl_fixed'
    intro entry
    rw [synchronizeSlotToRemote, hsuppress', if_pos rfl]
  have hdata : (List.finRange m).foldl synchronizeDataSlotToRemote
      (u.broadcastCarried registry hashing) = u.broadcastCarried registry hashing := by
    apply foldl_fixed'
    intro index
    rw [synchronizeDataSlotToRemote, hcarried.suppress_eq.trans hsuppress', if_pos rfl]
  have heq : t.broadcastChanges registry hashing = u.broadcastCarried registry hashing := by
    rw [← hdata, ← hslots, ← hu]
    rfl
  rw [heq, ← hclient]
  unfold broadcastCarried
  split_ifs
  · split <;> rfl
  · rw [synchronizeCarriedToRemote, hsuppress', if_pos rfl]

/-- The client's view converges: after every broadcast that is not suppressed the client shows
what the server has. One that is suppressed sends nothing, and nothing that differs is taken
for synced. -/
theorem broadcastChanges_converges (hnew : t.IsNew) (ops : List (SyncOp C V H n))
    (hexact : ∀ op ∈ ops, op.Exact registry hashing)
    (hrun : runSteps (MenuSession.step registry hashing) t ops = u) :
    (u.menu.suppressRemoteUpdates = false →
      (u.broadcastChanges registry hashing).Synced registry) ∧
    (u.menu.suppressRemoteUpdates = true →
      (u.broadcastChanges registry hashing).client = u.client ∧
      (∀ i, ¬ (u.client.slots i).Matches registry (u.menu.items i) →
        ¬ ((u.broadcastChanges registry hashing).menu.remoteSlots i).Matches registry hashing
          (u.menu.items i)) ∧
      (¬ u.client.carried.Matches registry u.menu.carried →
        ¬ (u.broadcastChanges registry hashing).menu.remoteCarried.Matches registry hashing
          u.menu.carried) ∧
      ∀ i, u.client.data i ≠ u.menu.dataSlots i →
        (u.broadcastChanges registry hashing).menu.remoteDataSlots i ≠ u.menu.dataSlots i) := by
  have hu : u.Believed registry hashing := hrun ▸ believed_run hnew hexact
  obtain ⟨hadvances, hsynced⟩ := hu.advances_broadcastChanges
  refine ⟨hsynced, fun hsuppress => ?_⟩
  have hclient := hu.client_broadcastChanges hsuppress
  have hbelieved := hadvances.believed
  refine ⟨hclient, ?_, ?_, ?_⟩
  · intro i hdiffers hmatches
    apply hdiffers
    rw [← hclient]
    exact (hbelieved.slots i).matches_of_matches hmatches
  · intro hdiffers hmatches
    apply hdiffers
    rw [← hclient]
    exact hbelieved.carried.matches_of_matches hmatches
  · intro i hdiffers heq
    apply hdiffers
    rw [← hclient, ← hbelieved.data, heq]

end Run

namespace Example

/-- One component without defaults, whose values are their own hashes. -/
def oneComponent : ComponentRegistry Unit ℕ where
  id _ := 0
  getKeyById i := if i = 0 then some () else none
  getKeyById_eq_some := by
    intro i c
    by_cases hi : i = 0
    · simp [hi]
    · simp [hi, Ne.symm hi]
  prototype _ _ := none

def ownHash : ComponentHashing Unit ℕ ℕ where
  hash _ v := v
  computeHash _ v := some v
  hash_of_computeHash h := Option.some_inj.mp h
  hash_injective _ := Function.injective_id

def stones : PatchedStack Unit ℕ := ⟨1, 3, fun _ => none⟩

def stonesHash : HashedStack ℕ := .item 1 3 ⟨[], []⟩

def session : MenuSession Unit ℕ ℕ 2 1 where
  menu :=
    { items := fun _ => .empty
      remoteSlots := fun _ => .unknown
      carried := .empty
      remoteCarried := .unknown
      containerId := 5
      stateId := 0
      suppressRemoteUpdates := false
      dataSlots := fun _ => 7
      remoteDataSlots := fun _ => 0
      slots_le := by decide
      data_le := by decide }
  client := ⟨5, 0, fun _ => .empty, .empty, fun _ => 0⟩

/-- The client predicts a click that the server carries out differently. -/
def ops : List (SyncOp Unit ℕ ℕ 2) :=
  [.sendAllDataToRemote, .suppressRemoteUpdates, .predictSlot 0 stones stonesHash,
    .predictCarried .empty .empty, .broadcastChanges, .resumeRemoteUpdates]

theorem converges :
    ((runSteps (MenuSession.step oneComponent ownHash) session ops).broadcastChanges oneComponent
      ownHash).Synced oneComponent := by
  refine (broadcastChanges_converges (t := session) ?_ ops ?_ rfl).1 rfl
  · exact ⟨fun _ => rfl, rfl, fun _ => rfl, fun _ => rfl, rfl⟩
  · have hstones : stonesHash.IsHashOf oneComponent ownHash stones := by
      refine ⟨by decide, rfl, rfl, ?_⟩
      constructor
      · exact fun _ _ h => nomatch h
      · exact fun _ h => nomatch h
      · simp [stones]
    intro op hop
    simp only [ops, mem_cons, not_mem_nil, or_false] at hop
    rcases hop with rfl | rfl | rfl | rfl | rfl | rfl
    · trivial
    · trivial
    · exact hstones
    · exact .inl rfl
    · trivial
    · trivial

end Example

end MenuSession

end Steel
