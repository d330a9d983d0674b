import Disvm.VmStack
import Mathlib.Data.List.Pairwise

/-!
# Stack discipline

The live frames lie one after the other on the pages of the chain, each page
but the first with a frame of its own.  From this the frames do not overlap,
what a step writes lies in one frame, and the frame below the top one is found
on the top page or on the page before it.
-/

namespace Disvm.VmStack

open ByteMemory

/-- The frames of one page, the last first. -/
inductive OnPage (stackPageSize : ℕ) (page : StackPage) : List Frame → Prop
  | first (frame : Frame) (atStart : frame.address = page.stackData)
      (fits : sizeofFrame + frame.size ≤ stackPageSize) : OnPage stackPageSize page [frame]
  | next (upper lower : Frame) (frames : List Frame)
      (below : OnPage stackPageSize page (lower :: frames))
      (follows : upper.address = lower.address + (sizeofFrame + lower.size))
      (inside : upper.address + (sizeofFrame + upper.size) < page.pageLimitAddr) :
      OnPage stackPageSize page (upper :: lower :: frames)

/-- The frames of a chain of pages. -/
inductive Stacked (stackPageSize : ℕ) : List StackPage → List Frame → Prop
  | bottom (page : StackPage) (frames : List Frame)
      (held : frames = [] ∨ OnPage stackPageSize page frames)
      (top : page.pageTopFrame = frames.head?.map Frame.address) :
      Stacked stackPageSize [page] frames
  | higher (page : StackPage) (pages : List StackPage) (upper lower : List Frame)
      (held : OnPage stackPageSize page upper) (nonempty : lower ≠ [])
      (top : page.pageTopFrame = upper.head?.map Frame.address)
      (below : Stacked stackPageSize pages lower) :
      Stacked stackPageSize (page :: pages) (upper ++ lower)

/-- Where a page may be. -/
def Placed (stackPageSize : ℕ) (page : StackPage) : Prop :=
  page.pageLimitAddr = page.address + stackPageSize ∧ 0 < page.address ∧
    page.address + sizeofStackPage + 2 * stackPageSize < 2 ^ 32

def PagesApart (stackPageSize : ℕ) (pages : List StackPage) : Prop :=
  pages.Pairwise fun upper lower =>
    Extent.Apart (upper.extent stackPageSize) (lower.extent stackPageSize)

section Pages

variable {stackPageSize : ℕ} {page : StackPage} {pages : List StackPage} {frames : List Frame}

theorem OnPage.ne_nil (held : OnPage stackPageSize page frames) : frames ≠ [] := by
  cases held <;> simp

theorem OnPage.start_le (held : OnPage stackPageSize page frames) :
    ∀ frame ∈ frames, page.stackData ≤ frame.address := by
  induction held with
  | first frame atStart fits => simp [atStart]
  | next upper lower frames below follows inside ih =>
      intro frame member
      rcases List.mem_cons.mp member with rfl | isBelow
      · have start := ih lower List.mem_cons_self
        omega
      · exact ih frame isBelow

/-- A frame ends where the next one begins. -/
theorem OnPage.end_le {upper : Frame} (held : OnPage stackPageSize page (upper :: frames)) :
    ∀ frame ∈ frames, frame.address + (sizeofFrame + frame.size) ≤ upper.address := by
  induction frames generalizing upper with
  | nil => simp
  | cons lower frames ih =>
      cases held with
      | next _ _ _ below follows inside =>
          intro frame member
          rcases List.mem_cons.mp member with rfl | isBelow
          · omega
          · have earlier := ih below frame isBelow
            omega

theorem OnPage.within (held : OnPage stackPageSize page frames)
    (placed : Placed stackPageSize page) :
    ∀ frame ∈ frames, frame.extent.Within (page.extent stackPageSize) := by
  intro frame member
  have start := held.start_le frame member
  obtain ⟨limit, -, -⟩ := placed
  unfold StackPage.stackData sizeofStackPage at start
  induction held with
  | first first atStart fits =>
      rw [List.mem_singleton] at member
      subst member
      unfold StackPage.stackData sizeofStackPage at atStart
      constructor <;> simp only [Frame.extent, StackPage.extent, sizeofStackPage] <;> omega
  | next upper lower frames below follows inside ih =>
      rcases List.mem_cons.mp member with rfl | isBelow
      · constructor <;> simp only [Frame.extent, StackPage.extent, sizeofStackPage] <;> omega
      · exact ih isBelow

theorem OnPage.fits (held : OnPage stackPageSize page frames)
    (placed : Placed stackPageSize page) :
    ∀ frame ∈ frames, sizeofFrame + frame.size ≤ stackPageSize := by
  intro frame member
  have start := held.start_le frame member
  obtain ⟨limit, -, -⟩ := placed
  unfold StackPage.stackData at start
  induction held with
  | first first atStart fits =>
      rw [List.mem_singleton] at member
      exact member ▸ fits
  | next upper lower frames below follows inside ih =>
      rcases List.mem_cons.mp member with rfl | isBelow
      · omega
      · exact ih isBelow

theorem OnPage.apart (held : OnPage stackPageSize page frames) :
    frames.Pairwise fun upper lower => Extent.Apart upper.extent lower.extent := by
  induction held with
  | first frame atStart fits => exact List.pairwise_singleton _ _
  | next upper lower frames below follows inside ih =>
      refine List.pairwise_cons.mpr ⟨fun frame member => ?_, ih⟩
      exact Or.inr ((OnPage.next upper lower frames below follows inside).end_le frame member)

/-- The page recognises its frames. -/
theorem OnPage.containsFrame (held : OnPage stackPageSize page frames)
    (placed : Placed stackPageSize page) {frame : Frame} (member : frame ∈ frames)
    (data : sizeofFrameBase < frame.size) : page.containsFrame frame.address = true := by
  have start := held.start_le frame member
  have fits := held.fits placed frame member
  obtain ⟨limit, -, -⟩ := placed
  have below : frame.address < page.pageLimitAddr := by
    cases held with
    | first first atStart _ =>
        rw [List.mem_singleton] at member
        subst member
        unfold StackPage.stackData sizeofStackPage at atStart
        unfold sizeofFrameBase at data
        omega
    | next upper lower frames below follows inside =>
        have whole := OnPage.next upper lower frames below follows inside
        rcases List.mem_cons.mp member with rfl | isBelow
        · omega
        · have ends := whole.end_le frame isBelow
          omega
  simp [StackPage.containsFrame, start, below]

/-- An address of another page's allocation is not on the page. -/
theorem not_containsFrame {other : StackPage} {frame : ℕ} (placed : Placed stackPageSize page)
    (apart : Extent.Apart (page.extent stackPageSize) (other.extent stackPageSize))
    (inside : (other.extent stackPageSize).Contains frame) :
    page.containsFrame frame = false := by
  obtain ⟨limit, -, -⟩ := placed
  have outside := apart.symm.notContains inside
  unfold Extent.Contains StackPage.extent at outside
  dsimp only at outside
  have absent : ¬ (page.stackData ≤ frame ∧ frame < page.pageLimitAddr) := by
    unfold StackPage.stackData
    omega
  simpa [StackPage.containsFrame] using absent

theorem Stacked.within (stacked : Stacked stackPageSize pages frames)
    (placed : ∀ page ∈ pages, Placed stackPageSize page) :
    ∀ frame ∈ frames, ∃ page ∈ pages, frame.extent.Within (page.extent stackPageSize) := by
  intro frame member
  induction stacked with
  | bottom page frames held top =>
      rcases held with rfl | held
      · cases member
      · exact ⟨page, List.mem_cons_self,
          held.within (placed page List.mem_cons_self) frame member⟩
  | higher page pages upper lower held nonempty top below ih =>
      rcases List.mem_append.mp member with inUpper | inLower
      · exact ⟨page, List.mem_cons_self,
          held.within (placed page List.mem_cons_self) frame inUpper⟩
      · obtain ⟨other, isPage, within⟩ :=
          ih (fun other isPage => placed other (List.mem_cons_of_mem page isPage)) inLower
        exact ⟨other, List.mem_cons_of_mem page isPage, within⟩

theorem Stacked.fits (stacked : Stacked stackPageSize pages frames)
    (placed : ∀ page ∈ pages, Placed stackPageSize page) :
    ∀ frame ∈ frames, sizeofFrame + frame.size ≤ stackPageSize := by
  intro frame member
  induction stacked with
  | bottom page frames held top =>
      rcases held with rfl | held
      · cases member
      · exact held.fits (placed page List.mem_cons_self) frame member
  | higher page pages upper lower held nonempty top below ih =>
      rcases List.mem_append.mp member with inUpper | inLower
      · exact held.fits (placed page List.mem_cons_self) frame inUpper
      · exact ih (fun other isPage => placed other (List.mem_cons_of_mem page isPage)) inLower

/-- Live frames do not overlap. -/
theorem Stacked.apart (stacked : Stacked stackPageSize pages frames)
    (placed : ∀ page ∈ pages, Placed stackPageSize page)
    (pagesApart : PagesApart stackPageSize pages) :
    frames.Pairwise fun upper lower => Extent.Apart upper.extent lower.extent := by
  induction stacked with
  | bottom page frames held top =>
      rcases held with rfl | held
      · exact List.Pairwise.nil
      · exact held.apart
  | higher page pages upper lower held nonempty top below ih =>
      have others : ∀ other ∈ pages, Placed stackPageSize other :=
        fun other isPage => placed other (List.mem_cons_of_mem page isPage)
      obtain ⟨away, rest⟩ := List.pairwise_cons.mp pagesApart
      refine List.pairwise_append.mpr ⟨held.apart, ih others rest, ?_⟩
      intro first inUpper second inLower
      obtain ⟨other, isPage, within⟩ := below.within others second inLower
      exact (away other isPage).within
        (held.within (placed page List.mem_cons_self) first inUpper) within

/-- Each page but the first has a frame. -/
theorem Stacked.inhabited (stacked : Stacked stackPageSize pages frames)
    (placed : ∀ page ∈ pages, Placed stackPageSize page) :
    ∀ page ∈ pages.dropLast, ∃ frame ∈ frames,
      frame.extent.Within (page.extent stackPageSize) := by
  intro other isPage
  induction stacked with
  | bottom page frames held top => simp at isPage
  | higher page pages upper lower held nonempty top below ih =>
      have notEmpty : pages ≠ [] := by cases below <;> simp
      rw [List.dropLast_cons_of_ne_nil notEmpty] at isPage
      rcases List.mem_cons.mp isPage with rfl | isLower
      · obtain ⟨frame, member⟩ := List.exists_mem_of_ne_nil upper held.ne_nil
        exact ⟨frame, List.mem_append_left lower member,
          held.within (placed _ List.mem_cons_self) frame member⟩
      · obtain ⟨frame, member, within⟩ :=
          ih (fun other isPage => placed other (List.mem_cons_of_mem page isPage)) isLower
        exact ⟨frame, List.mem_append_right upper member, within⟩

/-- The top page tracks the frame that was allocated last. -/
theorem Stacked.top_eq {top : StackPage} (stacked : Stacked stackPageSize (top :: pages) frames) :
    top.pageTopFrame = frames.head?.map Frame.address := by
  generalize chain : top :: pages = all at stacked
  cases stacked with
  | bottom page frames held isTop =>
      cases chain
      exact isTop
  | higher page pages upper lower held nonempty isTop below =>
      cases chain
      obtain ⟨frame, rest, rfl⟩ := List.exists_cons_of_ne_nil held.ne_nil
      simpa using isTop

/-- The page of some frames with another tracking pointer. -/
theorem OnPage.retop (held : OnPage stackPageSize page frames) (top : Option ℕ) :
    OnPage stackPageSize { page with pageTopFrame := top } frames := by
  induction held with
  | first frame atStart fits => exact .first frame atStart fits
  | next upper lower frames below follows inside ih =>
      exact .next upper lower frames ih follows inside

/-- The first frame of an empty stack. -/
theorem Stacked.first (stacked : Stacked stackPageSize (page :: pages) []) {frame : Frame}
    (atStart : frame.address = page.stackData) (fits : sizeofFrame + frame.size ≤ stackPageSize) :
    Stacked stackPageSize ({ page with pageTopFrame := some frame.address } :: pages) [frame] := by
  generalize chain : page :: pages = all at stacked
  generalize empty : ([] : List Frame) = live at stacked
  cases stacked with
  | bottom other frames held top =>
      cases chain
      subst empty
      exact .bottom _ [frame] (Or.inr ((OnPage.first frame atStart fits).retop _)) rfl
  | higher other rest upper lower held nonempty top below =>
      exact absurd (List.append_eq_nil_iff.mp empty.symm).1 held.ne_nil

/-- A frame on the top page, above the one there. -/
theorem Stacked.next {upper lower : Frame}
    (stacked : Stacked stackPageSize (page :: pages) (lower :: frames))
    (follows : upper.address = lower.address + (sizeofFrame + lower.size))
    (inside : upper.address + (sizeofFrame + upper.size) < page.pageLimitAddr) :
    Stacked stackPageSize ({ page with pageTopFrame := some upper.address } :: pages)
      (upper :: lower :: frames) := by
  generalize chain : page :: pages = all at stacked
  generalize isLive : lower :: frames = live at stacked
  cases stacked with
  | bottom other held onPage top =>
      cases chain
      subst isLive
      have above := (onPage.resolve_left (List.cons_ne_nil lower frames)).retop
        (some upper.address)
      exact .bottom _ _ (Or.inr (.next upper lower frames above follows inside)) rfl
  | higher other rest first second onPage nonempty top below =>
      cases chain
      obtain ⟨head, tail, rfl⟩ := List.exists_cons_of_ne_nil onPage.ne_nil
      obtain ⟨rfl, rfl⟩ := List.cons.inj isLive
      have above := OnPage.next upper lower tail (onPage.retop (some upper.address)) follows inside
      exact .higher _ _ (upper :: lower :: tail) second above nonempty rfl below

/-- A frame on a new page. -/
theorem Stacked.grow {upper : Frame} (stacked : Stacked stackPageSize pages frames)
    (nonempty : frames ≠ []) (atStart : upper.address = page.stackData)
    (fits : sizeofFrame + upper.size ≤ stackPageSize) :
    Stacked stackPageSize ({ page with pageTopFrame := some upper.address } :: pages)
      (upper :: frames) :=
  .higher _ pages [upper] frames (.first upper atStart fits) nonempty rfl stacked

/-- The top frame goes: the frame below it is on the same page, or the page had
no other frame. -/
theorem Stacked.pop {top : StackPage} {upper : Frame}
    (stacked : Stacked stackPageSize (top :: pages) (upper :: frames)) :
    (frames = [] ∧ pages = []) ∨
    (∃ lower rest, frames = lower :: rest ∧
      (∃ segment, OnPage stackPageSize top segment ∧ lower ∈ segment) ∧
      Stacked stackPageSize ({ top with pageTopFrame := some lower.address } :: pages) frames) ∨
    ∃ page others lower rest, pages = page :: others ∧ frames = lower :: rest ∧
      (∃ segment, OnPage stackPageSize page segment ∧ lower ∈ segment) ∧
      Stacked stackPageSize pages frames := by
  generalize chain : top :: pages = all at stacked
  generalize isLive : upper :: frames = live at stacked
  cases stacked with
  | bottom other held onPage isTop =>
      cases chain
      subst isLive
      cases onPage.resolve_left (List.cons_ne_nil upper frames) with
      | first _ atStart fits => exact Or.inl ⟨rfl, rfl⟩
      | next _ lower rest below follows inside =>
          refine Or.inr (Or.inl ⟨lower, rest, rfl, ⟨_, below, List.mem_cons_self⟩, ?_⟩)
          exact .bottom _ _ (Or.inr (below.retop _)) rfl
  | higher other rest first second onPage nonempty isTop below =>
      cases chain
      cases onPage with
      | first frame atStart fits =>
          obtain ⟨rfl, rfl⟩ := List.cons.inj isLive
          refine Or.inr (Or.inr ?_)
          cases below with
          | bottom page frames held isTop =>
              have onPage := held.resolve_left nonempty
              obtain ⟨lower, rest, rfl⟩ := List.exists_cons_of_ne_nil nonempty
              exact ⟨page, [], lower, rest, rfl, rfl, ⟨_, onPage, List.mem_cons_self⟩,
                .bottom page _ held isTop⟩
          | higher page pages middle bottom onPage notEmpty isTop below =>
              obtain ⟨lower, rest, rfl⟩ := List.exists_cons_of_ne_nil onPage.ne_nil
              exact ⟨page, pages, lower, rest ++ bottom, rfl, rfl, ⟨_, onPage, List.mem_cons_self⟩,
                .higher page pages _ bottom onPage notEmpty isTop below⟩
      | next _ lower rest held follows inside =>
          obtain ⟨rfl, rfl⟩ := List.cons.inj isLive
          refine Or.inr (Or.inl ⟨lower, rest ++ second, rfl, ⟨_, held, List.mem_cons_self⟩, ?_⟩)
          exact .higher _ _ (lower :: rest) second (held.retop _) nonempty rfl below

end Pages

/-- The memory has the frame's size and data, except for its previous frame. -/
def Agrees (memory : Memory) (frame : Frame) : Prop :=
  sizeInBytes memory frame.address = frame.size ∧
    ∀ offset < frame.size, offset < 4 ∨ 8 ≤ offset →
      memory (base frame.address + offset) = frame.bytes offset

/-- Each frame designates the one below it. -/
def Linked (memory : Memory) : List Frame → Prop
  | [] => True
  | frame :: frames =>
      prevFrame memory frame.address = frames.head?.map Frame.address ∧ Linked memory frames

section Memory

variable {before after : Memory} {frame : Frame} {frames : List Frame}

theorem Agrees.of_sameOn (agrees : Agrees before frame) (large : sizeofFrameBase < frame.size)
    (same : SameOn frame.extent before after) : Agrees after frame := by
  unfold sizeofFrameBase at large
  refine ⟨?_, fun offset inside other => ?_⟩
  · have header : (wordAt frame.address).Within frame.extent := by
      constructor <;> simp only [wordAt, Frame.extent, sizeofFrame] <;> omega
    exact (same.within header).readWord.trans agrees.1
  · rw [same (base frame.address + offset) ?_]
    · exact agrees.2 offset inside other
    · constructor <;> simp only [base, Frame.extent, sizeofFrame] <;> omega

theorem prevFrame_of_sameOn (large : sizeofFrameBase < frame.size)
    (same : SameOn frame.extent before after) :
    prevFrame after frame.address = prevFrame before frame.address := by
  unfold sizeofFrameBase at large
  have header : (wordAt (prevFrameAddr frame.address)).Within frame.extent := by
    constructor <;>
      simp only [wordAt, prevFrameAddr, base, Frame.extent, sizeofFrame] <;> omega
  unfold prevFrame
  rw [(same.within header).readWord]

theorem linked_of_prevFrame (linked : Linked before frames)
    (same : ∀ frame ∈ frames, prevFrame after frame.address = prevFrame before frame.address) :
    Linked after frames := by
  induction frames with
  | nil => trivial
  | cons frame frames ih =>
      refine ⟨?_, ih linked.2 fun other member => same other (List.mem_cons_of_mem _ member)⟩
      rw [same frame List.mem_cons_self]
      exact linked.1

theorem Linked.of_sameOn (linked : Linked before frames)
    (large : ∀ frame ∈ frames, sizeofFrameBase < frame.size)
    (same : ∀ frame ∈ frames, SameOn frame.extent before after) : Linked after frames :=
  linked_of_prevFrame linked fun frame member =>
    prevFrame_of_sameOn (large frame member) (same frame member)

/-- The constructor writes the new frame only. -/
theorem sameOn_constructFrame {extent : Extent} {address size : ℕ}
    (large : sizeofFrameBase < size)
    (apart : extent.Apart (Frame.create address size).extent) (memory : Memory) :
    SameOn extent memory (constructFrame address size memory) := by
  unfold sizeofFrameBase at large
  have part : ∀ inner : Extent, inner.Within (Frame.create address size).extent →
      extent.Apart inner :=
    fun inner within => apart.within ⟨Nat.le_refl _, Nat.le_refl _⟩ within
  have word : ∀ offset, offset + 4 ≤ 8 + size → extent.Apart (wordAt (address + offset)) := by
    intro offset inside
    refine part _ ⟨?_, ?_⟩ <;>
      simp only [wordAt, Frame.create, Frame.extent, sizeofFrame] <;> omega
  have data : extent.Apart (frameData address size) := by
    refine part _ ⟨?_, ?_⟩ <;>
      simp only [frameData, base, Frame.create, Frame.extent, sizeofFrame] <;> omega
  unfold constructFrame prevModuleRefAddr prevFrameAddr prevPcAddr base sizeofFrame
  exact (sameOn_writeWord (word 0 (by omega)) size memory).trans
    ((sameOn_writeWord (word 4 (by omega)) 0 _).trans
      ((sameOn_fill data 0 _).trans
        ((sameOn_writeWord (word 8 (by omega)) invalidProgramCounter _).trans
          ((sameOn_writeWord (word 12 (by omega)) 0 _).trans
            (sameOn_writeWord (word 16 (by omega)) 0 _)))))

theorem agrees_constructFrame {address size : ℕ} (small : size < 2 ^ 32) (memory : Memory) :
    Agrees (constructFrame address size memory) (Frame.create address size) := by
  constructor
  · have word : ∀ offset value (memory : Memory), 4 ≤ offset →
        SameOn (wordAt address) memory (writeWord (address + offset) value memory) := by
      intro offset value memory above
      exact sameOn_writeWord (Or.inl (by simp only [wordAt]; omega)) value memory
    have data : ∀ memory : Memory,
        SameOn (wordAt address) memory (fill (frameData address size) 0 memory) := by
      intro memory
      exact sameOn_fill (Or.inl (by
        simp only [wordAt, frameData, base, sizeofFrame]
        omega)) 0 memory
    have later : SameOn (wordAt address) (writeWord address size memory)
        (constructFrame address size memory) := by
      unfold constructFrame prevModuleRefAddr prevFrameAddr prevPcAddr base sizeofFrame
      exact (word 4 0 _ (by omega)).trans ((data _).trans
        ((word 8 _ _ (by omega)).trans ((word 12 _ _ (by omega)).trans
          (word 16 _ _ (by omega)))))
    exact later.readWord.trans (readWord_writeWord small address memory)
  · intro offset inside other
    have apartFrom : ∀ field, offset < field ∨ field + 4 ≤ offset →
        ¬ (wordAt (base address + field)).Contains (base address + offset) := by
      intro field outside
      simp only [Extent.Contains, wordAt]
      omega
    unfold constructFrame prevModuleRefAddr prevFrameAddr prevPcAddr
    simp only [Frame.create]
    rcases other with isPc | above
    · rw [writeWord_outside (apartFrom 8 (by omega)), writeWord_outside (apartFrom 4 (by omega)),
        if_pos isPc]
      have isByte : offset = 0 ∨ offset = 1 ∨ offset = 2 ∨ offset = 3 := by omega
      rcases isByte with rfl | rfl | rfl | rfl <;> simp [writeWord, invalidProgramCounter]
    · rw [if_neg (show ¬ offset < 4 by omega)]
      by_cases isModule : offset < 12
      · have isByte : offset = 8 ∨ offset = 9 ∨ offset = 10 ∨ offset = 11 := by omega
        rcases isByte with rfl | rfl | rfl | rfl <;> simp [writeWord]
      · rw [writeWord_outside (apartFrom 8 (by omega)), writeWord_outside (apartFrom 4 (by omega)),
          writeWord_outside
            (show ¬ (wordAt (base address)).Contains (base address + offset) from
              apartFrom 0 (by omega)), fill_inside]
        exact ⟨Nat.le_add_right _ _, Nat.add_lt_add_left inside _⟩

end Memory

structure WellFormed (state : StackState) : Prop where
  placed : ∀ page ∈ state.layout.pages, Placed state.layout.stackPageSize page
  pagesApart : PagesApart state.layout.stackPageSize state.layout.pages
  stacked : Stacked state.layout.stackPageSize state.layout.pages state.live
  large : ∀ frame ∈ state.live, sizeofFrameBase < frame.size
  agrees : ∀ frame ∈ state.live, Agrees state.layout.memory frame
  linked : Linked state.layout.memory state.frames
  topFrame : state.layout.topFrame = state.frames.head?.map Frame.address
  unfailed : state.failed = false

theorem wellFormed_initial {state : StackState} (initial : state.Initial) : WellFormed state := by
  obtain ⟨stackPageSize, address, memory, positive, room, rfl⟩ := initial
  refine ⟨?_, List.pairwise_singleton _ _, .bottom _ [] (Or.inl rfl) rfl, ?_, ?_, trivial, rfl, rfl⟩
  · intro page isPage
    rw [List.mem_singleton.mp isPage]
    exact ⟨rfl, positive, room⟩
  · simp [StackState.live]
  · simp [StackState.live]

section Steps

variable {state : StackState}

theorem live_of_noPending (noPending : state.pending = none) : state.live = state.frames := by
  simp [StackState.live, noPending]

theorem WellFormed.ofPushed (noPending : state.pending = none)
    (placed : ∀ page ∈ state.layout.pages, Placed state.layout.stackPageSize page)
    (pagesApart : PagesApart state.layout.stackPageSize state.layout.pages)
    (stacked : Stacked state.layout.stackPageSize state.layout.pages state.frames)
    (large : ∀ frame ∈ state.frames, sizeofFrameBase < frame.size)
    (agrees : ∀ frame ∈ state.frames, Agrees state.layout.memory frame)
    (linked : Linked state.layout.memory state.frames)
    (topFrame : state.layout.topFrame = state.frames.head?.map Frame.address)
    (unfailed : state.failed = false) : WellFormed state := by
  rw [← live_of_noPending noPending] at stacked large agrees
  exact ⟨placed, pagesApart, stacked, large, agrees, linked, topFrame, unfailed⟩

/-- Frames have addresses that a word holds, other than null. -/
theorem WellFormed.address_bounds (wellFormed : WellFormed state) {frame : Frame}
    (member : frame ∈ state.live) : 0 < frame.address ∧ frame.address < 2 ^ 32 := by
  obtain ⟨page, isPage, within⟩ :=
    wellFormed.stacked.within wellFormed.placed frame member
  obtain ⟨limit, positive, room⟩ := wellFormed.placed page isPage
  unfold Extent.Within Frame.extent StackPage.extent at within
  dsimp only at within
  omega

/-- The memory of a state changes outside the live frames only. -/
theorem WellFormed.agrees_of_sameOn (wellFormed : WellFormed state) {memory : Memory}
    (same : ∀ frame ∈ state.live, SameOn frame.extent state.layout.memory memory) :
    (∀ frame ∈ state.live, Agrees memory frame) ∧ Linked memory state.frames := by
  have pushed : ∀ frame ∈ state.frames, frame ∈ state.live :=
    fun frame member => List.mem_append_right _ member
  refine ⟨fun frame member => ?_, ?_⟩
  · exact (wellFormed.agrees frame member).of_sameOn (wellFormed.large frame member)
      (same frame member)
  · exact wellFormed.linked.of_sameOn
      (fun frame member => wellFormed.large frame (pushed frame member))
      fun frame member => same frame (pushed frame member)

/-- Where the new frame goes. -/
theorem allocFrame_spec (wellFormed : WellFormed state) (noPending : state.pending = none)
    {size newAddress : ℕ} (fresh : StackState.Fresh state.layout newAddress) :
    state.layout.allocFrame size newAddress = none ∨
    ∃ layout frame, state.layout.allocFrame size newAddress = some (layout, frame) ∧
      layout.stackPageSize = state.layout.stackPageSize ∧
      layout.topFrame = state.layout.topFrame ∧
      layout.memory = constructFrame frame size state.layout.memory ∧
      (∀ page ∈ layout.pages, Placed state.layout.stackPageSize page) ∧
      PagesApart state.layout.stackPageSize layout.pages ∧
      Stacked state.layout.stackPageSize layout.pages (Frame.create frame size :: state.frames) ∧
      ∃ added, layout.pages.map StackPage.address =
        added ++ state.layout.pages.map StackPage.address := by
  obtain ⟨positive, room, away⟩ := fresh
  have live := live_of_noPending noPending
  have stacked := wellFormed.stacked
  rw [live] at stacked
  have onTop := stacked.top_eq
  have retopped : ∀ top, ∀ page ∈ { state.layout.topPage with pageTopFrame := top } ::
      state.layout.prevPages, Placed state.layout.stackPageSize page := by
    intro top page isPage
    rcases List.mem_cons.mp isPage with rfl | isLower
    · exact wellFormed.placed state.layout.topPage List.mem_cons_self
    · exact wellFormed.placed page (List.mem_cons_of_mem _ isLower)
  have keptApart : ∀ top, PagesApart state.layout.stackPageSize
      ({ state.layout.topPage with pageTopFrame := top } :: state.layout.prevPages) := by
    intro top
    obtain ⟨apart, rest⟩ := List.pairwise_cons.mp wellFormed.pagesApart
    exact List.pairwise_cons.mpr ⟨apart, rest⟩
  unfold StackLayout.allocFrame
  dsimp only
  by_cases tooLarge : state.layout.stackPageSize < sizeofFrame + size
  · exact Or.inl (if_pos tooLarge)
  rw [if_neg tooLarge]
  have fits : sizeofFrame + size ≤ state.layout.stackPageSize := Nat.le_of_not_lt tooLarge
  refine Or.inr ?_
  cases frames : state.frames with
  | nil =>
      rw [frames] at onTop stacked
      rw [onTop]
      refine ⟨_, _, rfl, rfl, rfl, rfl, retopped _, keptApart _, ?_, [], rfl⟩
      exact stacked.first
        (show (Frame.create state.layout.topPage.stackData size).address = _ from rfl) fits
  | cons upper rest =>
      rw [frames] at onTop stacked
      rw [onTop]
      have member : upper ∈ state.live := by
        rw [live, frames]
        exact List.mem_cons_self
      have sizeIs := (wellFormed.agrees upper member).1
      simp only [List.head?_cons, Option.map_some, sizeIs]
      split
      · refine ⟨_, _, rfl, rfl, rfl, rfl, ?_, ?_, ?_, [newAddress], rfl⟩
        · intro page isPage
          rcases List.mem_cons.mp isPage with rfl | isLower
          · exact ⟨rfl, positive, room⟩
          · exact wellFormed.placed page isLower
        · exact List.pairwise_cons.mpr ⟨away, wellFormed.pagesApart⟩
        · let page := StackLayout.freshPage state.layout.stackPageSize newAddress
          exact stacked.grow (List.cons_ne_nil _ _)
            (show (Frame.create page.stackData size).address = page.stackData from rfl) fits
      · rename_i inside
        refine ⟨_, _, rfl, rfl, rfl, rfl, retopped _, keptApart _, ?_, [], rfl⟩
        let frame := Frame.create (upper.address + (sizeofFrame + upper.size)) size
        exact stacked.next (show frame.address = _ from rfl) (Nat.lt_of_not_le inside)

theorem wellFormed_allocFrame (wellFormed : WellFormed state) (noPending : state.pending = none)
    {size newAddress : ℕ} (large : sizeofFrameBase < size) {layout : StackLayout} {frame : ℕ}
    (fresh : StackState.Fresh state.layout newAddress)
    (allocated : state.layout.allocFrame size newAddress = some (layout, frame)) :
    WellFormed { state with layout := layout, pending := some (Frame.create frame size) } := by
  rcases allocFrame_spec wellFormed noPending fresh with
    throws | ⟨found, address, result, pageSize, top, memory, placed, apart, stacked, -⟩
  · rw [throws] at allocated
    cases allocated
  obtain ⟨sameLayout, sameFrame⟩ := Prod.mk.inj (Option.some.inj (result.symm.trans allocated))
  subst sameLayout sameFrame
  have live := live_of_noPending noPending
  have small : size < 2 ^ 32 := by
    have fits := stacked.fits placed _ List.mem_cons_self
    obtain ⟨page, isPage, -⟩ := stacked.within placed _ List.mem_cons_self
    obtain ⟨-, -, room⟩ := placed page isPage
    dsimp only [Frame.create] at fits
    omega
  obtain ⟨away, -⟩ := List.pairwise_cons.mp (stacked.apart placed apart)
  have same : ∀ other ∈ state.live, SameOn other.extent state.layout.memory found.memory := by
    intro other member
    rw [memory]
    exact sameOn_constructFrame large (away other (live ▸ member)).symm _
  obtain ⟨agrees, linked⟩ := wellFormed.agrees_of_sameOn same
  rw [live] at agrees
  refine ⟨pageSize ▸ placed, pageSize ▸ apart, pageSize ▸ stacked, ?_, ?_, linked,
    top.trans wellFormed.topFrame, wellFormed.unfailed⟩
  · intro other member
    rcases List.mem_cons.mp member with rfl | isLower
    · exact large
    · exact wellFormed.large other (live ▸ isLower)
  · intro other member
    rcases List.mem_cons.mp member with rfl | isLower
    · rw [memory]
      exact agrees_constructFrame small _
    · exact agrees other isLower

theorem toPointer_ofPointer {pointer : Option ℕ} (notNull : ∀ address ∈ pointer, 0 < address) :
    toPointer (ofPointer pointer) = pointer := by
  cases pointer with
  | none => rfl
  | some address =>
      have positive := notNull address rfl
      exact if_neg (show ¬ address = 0 by omega)

/-- The word that a push writes. -/
theorem agrees_writePrevFrame {memory : Memory} {frame : Frame} (agrees : Agrees memory frame)
    (value : ℕ) : Agrees (writeWord (prevFrameAddr frame.address) value memory) frame := by
  refine ⟨?_, fun offset inside other => ?_⟩
  · have header : (wordAt frame.address).Apart (wordAt (prevFrameAddr frame.address)) := by
      refine Or.inl ?_
      simp only [wordAt, prevFrameAddr, base, sizeofFrame]
      omega
    exact (sameOn_writeWord header value memory).readWord.trans agrees.1
  · rw [writeWord_outside ?_]
    · exact agrees.2 offset inside other
    · simp only [Extent.Contains, wordAt, prevFrameAddr]
      omega

theorem wellFormed_pushFrame (wellFormed : WellFormed state) {frame : Frame}
    (isPending : state.pending = some frame) :
    ∃ layout, state.layout.pushFrame = some layout ∧
      layout.pages = state.layout.pages ∧
      WellFormed { state with
        layout := layout
        pending := none
        frames := frame :: state.frames } := by
  have live : state.live = frame :: state.frames := by simp [StackState.live, isPending]
  have member : frame ∈ state.live := live ▸ List.mem_cons_self
  have stacked := wellFormed.stacked
  rw [live] at stacked
  have onTop : state.layout.topPage.pageTopFrame = some frame.address := stacked.top_eq
  have pushed : state.layout.pushFrame = some { state.layout with
      memory := writeWord (prevFrameAddr frame.address) (ofPointer state.layout.topFrame)
        state.layout.memory
      topFrame := some frame.address } := by
    simp only [StackLayout.pushFrame, onTop]
  refine ⟨_, pushed, rfl, ?_⟩
  have large := wellFormed.large frame member
  obtain ⟨away, -⟩ :=
    List.pairwise_cons.mp (stacked.apart wellFormed.placed wellFormed.pagesApart)
  have header : (wordAt (prevFrameAddr frame.address)).Within frame.extent := by
    unfold sizeofFrameBase at large
    constructor <;>
      simp only [wordAt, prevFrameAddr, base, Frame.extent, sizeofFrame] <;> omega
  have same : ∀ other ∈ state.frames, SameOn other.extent state.layout.memory
      (writeWord (prevFrameAddr frame.address) (ofPointer state.layout.topFrame)
        state.layout.memory) := by
    intro other isLower
    refine sameOn_writeWord ((away other isLower).within header ?_).symm _ _
    exact ⟨Nat.le_refl _, Nat.le_refl _⟩
  have lower : ∀ other ∈ state.frames, other ∈ state.live :=
    fun other isLower => List.mem_append_right _ isLower
  -- the frame that is now below the top one
  have bounds : ∀ address ∈ state.layout.topFrame, 0 < address ∧ address < 2 ^ 32 := by
    intro address isTop
    rw [wellFormed.topFrame, Option.mem_def, Option.map_eq_some_iff] at isTop
    obtain ⟨head, isHead, rfl⟩ := isTop
    exact wellFormed.address_bounds (lower head (List.mem_of_mem_head? isHead))
  have small : ofPointer state.layout.topFrame < 2 ^ 32 := by
    cases top : state.layout.topFrame with
    | none => decide
    | some address => exact (bounds address top).2
  refine ⟨wellFormed.placed, wellFormed.pagesApart, stacked, ?_, ?_, ⟨?_, ?_⟩, rfl,
    wellFormed.unfailed⟩
  · exact fun other isLive => wellFormed.large other (live ▸ isLive)
  · intro other isLive
    rcases List.mem_cons.mp isLive with rfl | isLower
    · exact agrees_writePrevFrame (wellFormed.agrees _ member) _
    · exact (wellFormed.agrees other (lower other isLower)).of_sameOn
        (wellFormed.large other (lower other isLower)) (same other isLower)
  · unfold prevFrame
    rw [readWord_writeWord small, toPointer_ofPointer fun address isTop => (bounds address isTop).1]
    exact wellFormed.topFrame
  · exact wellFormed.linked.of_sameOn
      (fun other isLower => wellFormed.large other (lower other isLower)) same

/-- The pages that a pop leaves. -/
theorem wellFormed_popFrame (debug : Bool) (wellFormed : WellFormed state)
    (noPending : state.pending = none) :
    ∃ layout, state.layout.popFrame debug =
        some (layout, state.frames.tail.head?.map Frame.address) ∧
      layout.stackPageSize = state.layout.stackPageSize ∧
      (∃ released, state.layout.pages.map StackPage.address =
        released ++ layout.pages.map StackPage.address) ∧
      (∀ frame ∈ state.frames.tail,
        SameOn frame.extent state.layout.memory layout.memory) ∧
      WellFormed { state with layout := layout, frames := state.frames.tail } := by
  have live := live_of_noPending noPending
  have stacked := wellFormed.stacked
  rw [live] at stacked
  cases isFrames : state.frames with
  | nil =>
      have noTop : state.layout.topFrame = none := by
        rw [wellFormed.topFrame, isFrames]
        rfl
      refine ⟨state.layout, ?_, rfl, ⟨[], rfl⟩, by simp, ?_⟩
      · simp only [StackLayout.popFrame, noTop]
        rfl
      · have same : { state with layout := state.layout, frames := ([] : List Frame).tail } =
            state := by
          rw [List.tail_nil, ← isFrames]
        rw [same]
        exact wellFormed
  | cons upper frames =>
      rw [isFrames] at stacked
      have member : upper ∈ state.live := by
        rw [live, isFrames]
        exact List.mem_cons_self
      have lower : ∀ other ∈ frames, other ∈ state.live := by
        intro other isLower
        rw [live, isFrames]
        exact List.mem_cons_of_mem upper isLower
      have linked := wellFormed.linked
      rw [isFrames] at linked
      have isTop : state.layout.topFrame = some upper.address := by
        rw [wellFormed.topFrame, isFrames]
        rfl
      have sizeIs := (wellFormed.agrees upper member).1
      obtain ⟨away, -⟩ :=
        List.pairwise_cons.mp (stacked.apart wellFormed.placed wellFormed.pagesApart)
      have same : ∀ other ∈ frames, SameOn other.extent state.layout.memory
          (destroyFrame debug upper.address state.layout.memory) := by
        intro other isLower
        unfold destroyFrame
        rw [sizeIs]
        split
        · refine sameOn_fill ((away other isLower).within ?_ ⟨Nat.le_refl _, Nat.le_refl _⟩).symm
            _ _
          constructor <;> simp only [frameData, base, Frame.extent, sizeofFrame] <;> omega
        · exact SameOn.refl _ _
      have agrees : ∀ other ∈ frames,
          Agrees (destroyFrame debug upper.address state.layout.memory) other :=
        fun other isLower => (wellFormed.agrees other (lower other isLower)).of_sameOn
          (wellFormed.large other (lower other isLower)) (same other isLower)
      have stillLinked : Linked (destroyFrame debug upper.address state.layout.memory) frames :=
        linked.2.of_sameOn (fun other isLower => wellFormed.large other (lower other isLower)) same
      have large : ∀ other ∈ frames, sizeofFrameBase < other.size :=
        fun other isLower => wellFormed.large other (lower other isLower)
      obtain ⟨away', rest'⟩ := List.pairwise_cons.mp wellFormed.pagesApart
      have topPlaced := wellFormed.placed state.layout.topPage List.mem_cons_self
      have others : ∀ page ∈ state.layout.prevPages, Placed state.layout.stackPageSize page :=
        fun page isPage => wellFormed.placed page (List.mem_cons_of_mem _ isPage)
      have retopped : ∀ top, ∀ page ∈ { state.layout.topPage with pageTopFrame := top } ::
          state.layout.prevPages, Placed state.layout.stackPageSize page := by
        intro top page isPage
        rcases List.mem_cons.mp isPage with rfl | isLower
        · exact topPlaced
        · exact others page isLower
      simp only [StackLayout.popFrame, isTop, linked.1, List.tail_cons]
      rcases stacked.pop with ⟨rfl, noPages⟩ |
        ⟨next, rest, rfl, ⟨segment, onPage, inSegment⟩, kept⟩ |
        ⟨page, pages, next, rest, isPages, rfl, ⟨segment, onPage, inSegment⟩, kept⟩
      · refine ⟨_, rfl, rfl, ⟨[], rfl⟩, by simp, .ofPushed noPending (retopped none)
          (List.pairwise_cons.mpr ⟨away', rest'⟩) ?_ (by simp) (by simp) trivial rfl
          wellFormed.unfailed⟩
        simp only [StackLayout.pages, noPages]
        exact .bottom _ [] (Or.inl rfl) rfl
      · have found := (onPage.retop (some next.address)).containsFrame
          (retopped (some next.address) _ List.mem_cons_self) inSegment
          (large next List.mem_cons_self)
        simp only [List.head?_cons, Option.map_some, found, if_true]
        exact ⟨_, rfl, rfl, ⟨[], rfl⟩, same, .ofPushed noPending (retopped _)
          (List.pairwise_cons.mpr ⟨away', rest'⟩) kept large agrees stillLinked rfl
          wellFormed.unfailed⟩
      · have isPage : page ∈ state.layout.prevPages := isPages ▸ List.mem_cons_self
        have pagePlaced := others page isPage
        have inside := onPage.within pagePlaced next inSegment
        have notFound : StackPage.containsFrame
            { state.layout.topPage with pageTopFrame := some next.address } next.address = false :=
          not_containsFrame (retopped (some next.address) _ List.mem_cons_self)
            (away' page isPage) (inside.contains ⟨Nat.le_refl _, by
              simp only [Frame.extent, sizeofFrame]
              omega⟩)
        have found := onPage.containsFrame pagePlaced inSegment (large next List.mem_cons_self)
        simp only [List.head?_cons, Option.map_some, notFound, StackLayout.dropPage, isPages, found,
          if_true, Bool.false_eq_true, if_false]
        rw [isPages] at others rest' kept
        refine ⟨_, rfl, rfl, ⟨[state.layout.topPage.address], ?_⟩, same,
          .ofPushed noPending others rest' kept large agrees stillLinked rfl wellFormed.unfailed⟩
        simp only [StackLayout.pages, isPages]
        rfl

/-- Where a frame is. -/
def Frame.shape (frame : Frame) : ℕ × ℕ :=
  (frame.address, frame.size)

theorem OnPage.reshape {stackPageSize : ℕ} {page : StackPage} {frames others : List Frame}
    (held : OnPage stackPageSize page frames)
    (same : others.map Frame.shape = frames.map Frame.shape) :
    OnPage stackPageSize page others := by
  induction held generalizing others with
  | first frame atStart fits =>
      obtain ⟨other, rest, rfl, shape, restIs⟩ := List.map_eq_cons_iff.mp same
      obtain rfl := List.map_eq_nil_iff.mp restIs
      obtain ⟨address, size⟩ := Prod.mk.inj shape
      exact .first other (address.trans atStart) (size ▸ fits)
  | next upper lower frames below follows inside ih =>
      obtain ⟨first, rest, rfl, firstShape, restIs⟩ := List.map_eq_cons_iff.mp same
      have held := ih restIs
      obtain ⟨second, rest, rfl, secondShape, -⟩ := List.map_eq_cons_iff.mp restIs
      obtain ⟨firstAddress, firstSize⟩ := Prod.mk.inj firstShape
      obtain ⟨secondAddress, secondSize⟩ := Prod.mk.inj secondShape
      exact .next first second rest held (by omega) (by omega)

theorem head_of_shapes {frames others : List Frame}
    (same : others.map Frame.shape = frames.map Frame.shape) :
    others.head?.map Frame.address = frames.head?.map Frame.address := by
  have heads := congrArg (fun list => (List.head? list).map Prod.fst) same
  rw [List.head?_map, List.head?_map, Option.map_map, Option.map_map] at heads
  exact heads

theorem Stacked.reshape {stackPageSize : ℕ} {pages : List StackPage} {frames others : List Frame}
    (stacked : Stacked stackPageSize pages frames)
    (same : others.map Frame.shape = frames.map Frame.shape) :
    Stacked stackPageSize pages others := by
  induction stacked generalizing others with
  | bottom page frames held top =>
      refine .bottom page others ?_ (top.trans (head_of_shapes same).symm)
      rcases held with rfl | held
      · exact Or.inl (List.map_eq_nil_iff.mp same)
      · exact Or.inr (held.reshape same)
  | higher page pages upper lower held nonempty top below ih =>
      rw [List.map_append] at same
      obtain ⟨first, second, rfl, firstSame, secondSame⟩ := List.map_eq_append_iff.mp same
      refine .higher page pages first second (held.reshape firstSame) ?_
        (top.trans (head_of_shapes firstSame).symm) (ih secondSame)
      rintro rfl
      exact nonempty (List.map_eq_nil_iff.mp secondSame.symm)

theorem Linked.reshape {memory : Memory} {frames others : List Frame}
    (linked : Linked memory frames) (same : others.map Frame.shape = frames.map Frame.shape) :
    Linked memory others := by
  induction frames generalizing others with
  | nil =>
      rw [List.map_eq_nil_iff.mp same]
      trivial
  | cons frame frames ih =>
      obtain ⟨first, rest, rfl, shape, restIs⟩ := List.map_eq_cons_iff.mp same
      refine ⟨?_, ih linked.2 restIs⟩
      rw [(Prod.mk.inj shape).1, linked.1, head_of_shapes restIs]

theorem map_shape_modify (frames : List Frame) (index offset : ℕ) (byte : UInt8) :
    (frames.modify index (Frame.write · offset byte)).map Frame.shape =
      frames.map Frame.shape := by
  refine List.ext_getElem? fun other => ?_
  rw [List.getElem?_map, List.getElem?_map, List.getElem?_modify]
  split
  · cases frames[other]? <;> rfl
  · cases frames[other]? <;> rfl

theorem live_modifyLive (index : ℕ) (change : Frame → Frame) :
    (state.modifyLive index change).live = state.live.modify index change := by
  unfold StackState.modifyLive StackState.live
  cases pending : state.pending with
  | none => rfl
  | some frame =>
      cases index with
      | zero => rfl
      | succ index => simp

theorem shape_frames_modifyLive (index offset : ℕ) (byte : UInt8) :
    (state.modifyLive index (Frame.write · offset byte)).frames.map Frame.shape =
      state.frames.map Frame.shape := by
  unfold StackState.modifyLive
  cases state.pending with
  | none => exact map_shape_modify state.frames index offset byte
  | some frame =>
      cases index with
      | zero => rfl
      | succ index => exact map_shape_modify state.frames index offset byte

/-- A byte of a frame's data. -/
theorem WellFormed.write_apart (wellFormed : WellFormed state) {index other : ℕ}
    {frame found : Frame} (isFrame : state.live[index]? = some frame)
    (isOther : state.live[other]? = some found) (different : other ≠ index) {offset : ℕ}
    (inside : offset < frame.size) :
    ¬ found.extent.Contains (base frame.address + offset) := by
  have apart := wellFormed.stacked.apart wellFormed.placed wellFormed.pagesApart
  have away : Extent.Apart frame.extent found.extent := by
    obtain ⟨indexIn, rfl⟩ := List.getElem?_eq_some_iff.mp isFrame
    obtain ⟨otherIn, rfl⟩ := List.getElem?_eq_some_iff.mp isOther
    have pairs := List.pairwise_iff_getElem.mp apart
    rcases Nat.lt_or_gt_of_ne different with before | after
    · exact (pairs other index otherIn indexIn before).symm
    · exact pairs index other indexIn otherIn after
  refine away.notContains ⟨?_, ?_⟩ <;> simp only [base, Frame.extent, sizeofFrame] <;> omega

theorem wellFormed_write (wellFormed : WellFormed state) {index offset : ℕ} {byte : UInt8}
    {frame : Frame} (isFrame : state.live[index]? = some frame) (inside : offset < frame.size)
    (other : offset < 4 ∨ 8 ≤ offset) :
    WellFormed { state.modifyLive index (Frame.write · offset byte) with
      layout := { state.layout with
        memory := Function.update state.layout.memory (base frame.address + offset) byte } } := by
  have live : (state.modifyLive index (Frame.write · offset byte)).live =
      state.live.modify index (Frame.write · offset byte) := live_modifyLive index _
  have shapes := map_shape_modify state.live index offset byte
  rw [← live] at shapes
  have pushedShapes : (state.modifyLive index (Frame.write · offset byte)).frames.map
      Frame.shape = state.frames.map Frame.shape := shape_frames_modifyLive index offset byte
  -- the bytes of all frames but the written one are the same, and so are headers
  have others : ∀ otherIndex found, state.live[otherIndex]? = some found → otherIndex ≠ index →
      SameOn found.extent state.layout.memory
        (Function.update state.layout.memory (base frame.address + offset) byte) :=
    fun otherIndex found isOther different =>
      sameOn_update (wellFormed.write_apart isFrame isOther different inside) byte _
  have header : prevFrame (Function.update state.layout.memory (base frame.address + offset) byte)
      frame.address = prevFrame state.layout.memory frame.address := by
    unfold prevFrame
    rw [(sameOn_update ?_ byte state.layout.memory).readWord]
    simp only [Extent.Contains, wordAt, prevFrameAddr]
    omega
  have written : Agrees
      (Function.update state.layout.memory (base frame.address + offset) byte)
      (frame.write offset byte) := by
    obtain ⟨size, bytes⟩ := wellFormed.agrees frame (List.mem_of_getElem? isFrame)
    refine ⟨?_, fun position isInside isOther => ?_⟩
    · refine Eq.trans (sameOn_update ?_ byte state.layout.memory).readWord size
      simp only [Extent.Contains, wordAt, base, sizeofFrame, Frame.write]
      omega
    · simp only [Frame.write, Function.update_apply, Nat.add_left_cancel_iff]
      split
      · rfl
      · exact bytes position isInside isOther
  have cases' : ∀ found ∈ (state.modifyLive index (Frame.write · offset byte)).live,
      found = frame.write offset byte ∨
        ∃ otherIndex, state.live[otherIndex]? = some found ∧ otherIndex ≠ index := by
    intro found member
    obtain ⟨otherIndex, isFound⟩ := List.mem_iff_getElem?.mp member
    rw [live, List.getElem?_modify] at isFound
    split at isFound
    · rename_i same
      rw [← same, isFrame] at isFound
      exact Or.inl (Option.some.inj isFound).symm
    · rename_i different
      rw [Option.map_eq_map, Option.map_id'] at isFound
      exact Or.inr ⟨otherIndex, isFound, fun same => different same.symm⟩
  refine ⟨wellFormed.placed, wellFormed.pagesApart, wellFormed.stacked.reshape shapes, ?_, ?_, ?_,
    wellFormed.topFrame.trans (head_of_shapes pushedShapes).symm, ?_⟩
  · intro found member
    rcases cases' found member with rfl | ⟨otherIndex, isOther, -⟩
    · exact wellFormed.large frame (List.mem_of_getElem? isFrame)
    · exact wellFormed.large found (List.mem_of_getElem? isOther)
  · intro found member
    rcases cases' found member with rfl | ⟨otherIndex, isOther, different⟩
    · exact written
    · have isLive := List.mem_of_getElem? isOther
      exact (wellFormed.agrees found isLive).of_sameOn (wellFormed.large found isLive)
        (others otherIndex found isOther different)
  · refine Linked.reshape
      (linked_of_prevFrame wellFormed.linked fun found member => ?_) pushedShapes
    obtain ⟨otherIndex, isOther⟩ :=
      List.mem_iff_getElem?.mp (List.mem_append_right state.pending.toList member)
    by_cases same : otherIndex = index
    · subst same
      rw [show state.live[otherIndex]? = some found from isOther] at isFrame
      cases isFrame
      exact header
    · exact prevFrame_of_sameOn (wellFormed.large found (List.mem_of_getElem? isOther))
        (others otherIndex found isOther same)
  · unfold StackState.modifyLive
    split <;> exact wellFormed.unfailed

theorem wellFormed_step {debug : Bool} {after : StackState} (wellFormed : WellFormed state)
    {action : StackState.Action} (stepped : StackState.step debug state action = some after) :
    WellFormed after := by
  cases action with
  | allocFrame size newAddress =>
      simp only [StackState.step, Option.ite_none_right_eq_some] at stepped
      obtain ⟨⟨noPending, large, fresh⟩, stepped⟩ := stepped
      split at stepped
      · cases stepped
        exact wellFormed
      · rename_i allocated
        cases stepped
        exact wellFormed_allocFrame wellFormed (Option.isNone_iff_eq_none.mp noPending) large fresh
          allocated
  | pushFrame =>
      cases isPending : state.pending with
      | none => simp [StackState.step, isPending] at stepped
      | some frame =>
          obtain ⟨layout, pushed, -, later⟩ := wellFormed_pushFrame wellFormed isPending
          simp only [StackState.step, isPending, pushed, Option.some.injEq] at stepped
          exact stepped ▸ later
  | popFrame =>
      simp only [StackState.step, Option.ite_none_right_eq_some] at stepped
      obtain ⟨noPending, stepped⟩ := stepped
      obtain ⟨layout, popped, -, -, -, later⟩ :=
        wellFormed_popFrame debug wellFormed (Option.isNone_iff_eq_none.mp noPending)
      rw [popped] at stepped
      exact Option.some.inj stepped ▸ later
  | write index offset byte =>
      simp only [StackState.step] at stepped
      split at stepped
      · cases stepped
      · rename_i frame isFrame
        simp only [Option.ite_none_right_eq_some, Option.some.injEq] at stepped
        obtain ⟨⟨inside, other⟩, rfl⟩ := stepped
        exact wellFormed_write wellFormed isFrame inside other

theorem wellFormed_of_reached {debug : Bool} (reached : StackState.Reached debug state) :
    WellFormed state := by
  refine Transition.Reachable.invariant WellFormed (fun _ => wellFormed_initial) ?_ reached
  rintro before after _ wellFormed ⟨action, -, stepped⟩
  exact wellFormed_step wellFormed stepped

end Steps

theorem addresses_nodup {stackPageSize : ℕ} {pages : List StackPage}
    (apart : PagesApart stackPageSize pages) : (pages.map StackPage.address).Nodup := by
  refine List.pairwise_map.mpr (apart.imp fun {upper lower} away same => ?_)
  unfold Extent.Apart StackPage.extent sizeofStackPage at away
  dsimp only at away
  omega

/-- A pop releases the pages that it leaves without a frame. -/
theorem released_iff {before after : StackState} (wellFormed : WellFormed before)
    (later : WellFormed after)
    (pageSize : after.layout.stackPageSize = before.layout.stackPageSize)
    {released : List ℕ} (addresses : before.layout.pages.map StackPage.address =
      released ++ after.layout.pages.map StackPage.address) {page : StackPage}
    (isPage : page ∈ before.layout.pages.dropLast) :
    page.address ∉ after.layout.pages.map StackPage.address ↔
      ∀ frame ∈ after.live, ¬ frame.extent.Within (page.extent before.layout.stackPageSize) := by
  have nodup := addresses_nodup wellFormed.pagesApart
  have sameExtent : ∀ {first second : StackPage}, first.address = second.address →
      first.extent before.layout.stackPageSize = second.extent before.layout.stackPageSize := by
    intro first second same
    simp only [StackPage.extent, same]
  constructor
  · intro absent frame member within
    obtain ⟨other, isOther, inOther⟩ := later.stacked.within later.placed frame member
    rw [pageSize] at inOther
    obtain ⟨earlier, isEarlier, same⟩ : ∃ earlier ∈ before.layout.pages,
        earlier.address = other.address := by
      refine List.mem_map.mp ?_
      rw [addresses]
      exact List.mem_append_right _ (List.mem_map_of_mem isOther)
    have different : earlier ≠ page := by
      rintro rfl
      exact absent (same ▸ List.mem_map_of_mem isOther)
    have symmetric : Std.Symm fun upper lower : StackPage =>
        Extent.Apart (upper.extent before.layout.stackPageSize)
          (lower.extent before.layout.stackPageSize) := ⟨fun _ _ => Extent.Apart.symm⟩
    have apart := List.Pairwise.forall wellFormed.pagesApart isEarlier
      (List.dropLast_subset _ isPage) different
    rw [sameExtent same] at apart
    have self : frame.extent.Apart frame.extent := apart.within inOther within
    unfold Extent.Apart Frame.extent sizeofFrame at self
    dsimp only at self
    omega
  · intro empty present
    have inBefore : page.address ∈ (before.layout.pages.map StackPage.address).dropLast := by
      rw [← List.map_dropLast]
      exact List.mem_map_of_mem isPage
    have notEmpty : after.layout.pages.map StackPage.address ≠ [] := by
      simp [StackLayout.pages]
    rw [addresses, List.dropLast_append_of_ne_nil notEmpty] at inBefore
    rw [addresses] at nodup
    have notReleased : page.address ∉ released := fun isReleased =>
      (List.nodup_append.mp nodup).2.2 _ isReleased _ present rfl
    have inAfter := (List.mem_append.mp inBefore).resolve_left notReleased
    rw [← List.map_dropLast] at inAfter
    obtain ⟨other, isOther, same⟩ := List.mem_map.mp inAfter
    obtain ⟨frame, member, within⟩ := later.stacked.inhabited later.placed other isOther
    rw [pageSize, sameExtent same] at within
    exact empty frame member within

/-- The discipline of a stack: where the live frames are, what the layout tracks
and what the operations do next. -/
structure Disciplined (debug : Bool) (state : StackState) : Prop where
  apart : state.live.Pairwise fun upper lower => Extent.Apart upper.extent lower.extent
  onPage : ∀ frame ∈ state.live, ∃ page ∈ state.layout.pages,
    frame.extent.Within (page.extent state.layout.stackPageSize)
  contents : ∀ frame ∈ state.live, Agrees state.layout.memory frame
  linked : Linked state.layout.memory state.frames
  topFrame : state.layout.topFrame = state.frames.head?.map Frame.address
  pageTopFrame : ∀ address ∈ state.layout.topPage.pageTopFrame,
    ∃ frame ∈ state.live, frame.address = address
  inhabited : ∀ page ∈ state.layout.pages.dropLast, ∃ frame ∈ state.live,
    frame.extent.Within (page.extent state.layout.stackPageSize)
  /-- Allocating and pushing release no page. -/
  allocs : state.pending = none → ∀ size newAddress layout frame,
    StackState.Fresh state.layout newAddress →
    state.layout.allocFrame size newAddress = some (layout, frame) →
      ∃ added, layout.pages.map StackPage.address =
        added ++ state.layout.pages.map StackPage.address
  pushes : ∀ frame, state.pending = some frame → ∃ layout,
    state.layout.pushFrame = some layout ∧ layout.topFrame = some frame.address ∧
      layout.pages = state.layout.pages
  /-- Popping returns the frame below, leaves the lower frames as they are and
  releases the pages that are left without a frame, other than the first. -/
  pops : state.pending = none → ∃ layout,
    state.layout.popFrame debug = some (layout, state.frames.tail.head?.map Frame.address) ∧
    (∀ frame ∈ state.frames.tail, SameOn frame.extent state.layout.memory layout.memory) ∧
    ∀ page ∈ state.layout.pages.dropLast,
      page.address ∉ layout.pages.map StackPage.address ↔
        ∀ frame ∈ state.frames.tail,
          ¬ frame.extent.Within (page.extent state.layout.stackPageSize)
  unfailed : state.failed = false

/-- In every run the stack keeps its discipline. -/
theorem stack_discipline {debug : Bool} {state : StackState}
    (reached : StackState.Reached debug state) : Disciplined debug state := by
  have wellFormed := wellFormed_of_reached reached
  refine ⟨wellFormed.stacked.apart wellFormed.placed wellFormed.pagesApart,
    wellFormed.stacked.within wellFormed.placed, wellFormed.agrees, wellFormed.linked,
    wellFormed.topFrame, ?_, wellFormed.stacked.inhabited wellFormed.placed, ?_, ?_, ?_,
    wellFormed.unfailed⟩
  · intro address isTop
    have onTop : state.layout.topPage.pageTopFrame = state.live.head?.map Frame.address :=
      wellFormed.stacked.top_eq
    rw [onTop, Option.mem_def, Option.map_eq_some_iff] at isTop
    obtain ⟨frame, isHead, same⟩ := isTop
    exact ⟨frame, List.mem_of_mem_head? isHead, same⟩
  · intro noPending size newAddress layout frame fresh allocated
    rcases allocFrame_spec wellFormed noPending fresh with
      throws | ⟨found, address, result, -, -, -, -, -, -, added⟩
    · rw [throws] at allocated
      cases allocated
    · cases result.symm.trans allocated
      exact added
  · intro frame isPending
    obtain ⟨layout, pushed, pages, later⟩ := wellFormed_pushFrame wellFormed isPending
    exact ⟨layout, pushed, later.topFrame, pages⟩
  · intro noPending
    obtain ⟨layout, popped, pageSize, ⟨released, addresses⟩, same, later⟩ :=
      wellFormed_popFrame debug wellFormed noPending
    refine ⟨layout, popped, same, fun page isPage => ?_⟩
    have released := released_iff wellFormed later pageSize addresses isPage
    have live := @live_of_noPending { state with
      layout := layout
      frames := state.frames.tail } noPending
    rw [live] at released
    exact released

/-- Three frames, the last on a second page, which is freed when it returns. -/
def twoPages : List StackState.Action :=
  [.allocFrame 32 2000, .pushFrame, .allocFrame 20 2000, .pushFrame, .allocFrame 60 2000,
    .pushFrame, .write 0 16 7]

theorem stack_discipline_twoPages :
    ∃ state, Transition.execute (StackState.step true)
        ⟨StackLayout.init 100 1000 fun _ => 0, none, [], false⟩ twoPages = some state ∧
      state.layout.prevPages.length = 1 ∧ Disciplined true state := by
  refine ⟨(Transition.execute (StackState.step true) _ twoPages).get (by decide),
    (Option.some_get _).symm, by decide, ?_⟩
  refine stack_discipline (Transition.reachable_of_execute (Transition.Reachable.start ?_)
    (fun _ _ _ => trivial) (Option.some_get _).symm)
  exact ⟨100, 1000, fun _ => 0, by decide, by decide, rfl⟩

end Disvm.VmStack
