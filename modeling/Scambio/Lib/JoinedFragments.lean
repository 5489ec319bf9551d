import Scambio.Lib.Reception

/-!
# JoinedFragments — what `check_in_frags` makes of the fragments of one file (`lib/channel.c`)

`check_in_frags` forgets nothing: each fragment is within one that it leaves.  Once there is no hole any more up to the
end of the file, it leaves a single fragment, and the transfer is over.

* `checkInFrags_fits`, `checkInFrags_within` : what is left of the fragments;
* `registerFrag_over`                        : the command that fills the last hole ends the transfer.
-/

namespace Scambio

/-! ## Fragments of a file -/

/-- A fragment of a file of `n` bytes; at its end, it has the end of file. -/
structure Fragment.Fits (n : Int) (f : Fragment) : Prop where
  start : 0 ≤ f.start
  le : f.start ≤ f.endAt
  fits : f.endAt ≤ n
  eof : f.endAt = n → f.eof = true

theorem Fragment.Fits.merge {n : Int} {f g : Fragment} (hf : f.Fits n) (hg : g.Fits n) : (mergeFrag f g).Fits n := by
  have hle := hf.le
  unfold mergeFrag
  split
  · exact ⟨hf.start, by simp only; omega, hg.fits, hg.eof⟩
  · exact hf

/-- What `check_in_frags` keeps of each fragment. -/
theorem checkLoop_forall {P : Fragment → Prop} (hts : ∀ f ts, P f → P { f with ts := ts })
    (hmerge : ∀ f g, P f → P g → P (mergeFrag f g)) (id : Int) (now : Nat) {frags : List Fragment}
    (h : ∀ f ∈ frags, P f) {last : Option Fragment} (hlast : ∀ f ∈ last, P f) (writes : Nat) (lastEnd : Int) :
    ∀ f ∈ (checkLoop id now writes last lastEnd frags).frags, P f := by
  induction frags generalizing writes last lastEnd with
  | nil =>
      cases last with
      | none => exact fun _ hmem => absurd hmem List.not_mem_nil
      | some last =>
          have hp := hlast last rfl
          unfold checkLoop
          split
          · cases writes with
            | zero => simpa using hp
            | succ writes => simpa using hts last now hp
          · simpa using hp
  | cons f frags ih =>
      have hf := h f List.mem_cons_self
      have hrest : ∀ g ∈ frags, P g := fun g hg => h g (List.mem_cons_of_mem _ hg)
      have hkept : ∀ g ∈ last.toList, P g := fun g hg => hlast g (Option.mem_toList.1 hg)
      rw [checkLoop_cons]
      split
      · cases writes with
        | zero =>
            intro g hg
            exact (List.mem_append.1 hg).elim (hkept g) (h g)
        | succ writes =>
            intro g hg
            refine (List.mem_append.1 hg).elim (hkept g) (ih hrest ?_ _ _ g)
            rintro g ⟨⟩
            exact hts f now hf
      · cases last with
        | none =>
            refine ih hrest ?_ _ _
            rintro g ⟨⟩
            exact hf
        | some last =>
            refine ih hrest ?_ _ _
            rintro g ⟨⟩
            exact hmerge last f (hlast last rfl) hf

/-- Each fragment is within one that `check_in_frags` leaves. -/
theorem checkLoop_within (id : Int) (now : Nat) {frags : List Fragment} {last : Option Fragment}
    (hord : Ordered (last.toList ++ frags)) (writes : Nat) (lastEnd : Int) {f : Fragment}
    (hf : f ∈ last.toList ++ frags) :
    ∃ g ∈ (checkLoop id now writes last lastEnd frags).frags, g.start ≤ f.start ∧ f.endAt ≤ g.endAt := by
  induction frags generalizing writes last lastEnd f with
  | nil =>
      cases last with
      | none => cases hf
      | some last =>
          rw [List.append_nil, Option.toList_some, List.mem_singleton] at hf
          subst hf
          unfold checkLoop
          split
          · cases writes with
            | zero => exact ⟨f, List.mem_cons_self, le_rfl, le_rfl⟩
            | succ writes => exact ⟨_, List.mem_cons_self, le_rfl, le_rfl⟩
          · exact ⟨f, List.mem_cons_self, le_rfl, le_rfl⟩
  | cons next frags ih =>
      rw [checkLoop_cons]
      split
      · -- a hole: `next` takes the place of `last`, which is left as it is
        cases writes with
        | zero => exact ⟨f, hf, le_rfl, le_rfl⟩
        | succ writes =>
            rcases List.mem_append.1 hf with hlast | hf
            · exact ⟨f, List.mem_append_left _ hlast, le_rfl, le_rfl⟩
            · have hord' : Ordered ((some { next with ts := now }).toList ++ frags) :=
                List.pairwise_cons.2 (List.pairwise_cons.1 (List.pairwise_append.1 hord).2.1)
              rcases List.mem_cons.1 hf with rfl | hf
              · rcases ih hord' writes f.endAt (List.mem_append_left _ List.mem_cons_self) with ⟨g, hg, hin⟩
                exact ⟨g, List.mem_append_right _ hg, hin⟩
              · rcases ih hord' writes next.endAt (List.mem_append_right _ hf) with ⟨g, hg, hin⟩
                exact ⟨g, List.mem_append_right _ hg, hin⟩
      · -- no hole: `next` is merged into `last`
        cases last with
        | none => exact ih hord writes next.endAt hf
        | some last =>
            rcases List.pairwise_cons.1 hord with ⟨hfirst, hrest⟩
            have hord' : Ordered ((some (mergeFrag last next)).toList ++ frags) := by
              refine List.pairwise_cons.2 ⟨fun g hg => ?_, (List.pairwise_cons.1 hrest).2⟩
              rw [mergeFrag_start]
              exact hfirst g (List.mem_cons_of_mem _ hg)
            have hmerged := ih hord' writes (mergeFrag last next).endAt (List.mem_append_left _ List.mem_cons_self)
            rcases hmerged with ⟨g, hg, hstart, hend⟩
            rw [mergeFrag_start] at hstart
            have hends := le_end_mergeFrag last next
            rcases List.mem_cons.1 hf with rfl | hf
            · exact ⟨g, hg, hstart, hends.1.trans hend⟩
            · rcases List.mem_cons.1 hf with rfl | hf
              · exact ⟨g, hg, hstart.trans (hfirst f List.mem_cons_self), hends.2.trans hend⟩
              · exact ih hord' writes _ (List.mem_append_right _ hf)

theorem checkInFrags_fits {tx : ChnTx} {n : Int} (h : ∀ f ∈ tx.inFrags, f.Fits n) (now writes : Nat) :
    ∀ f ∈ (checkInFrags tx now writes).1.inFrags, f.Fits n := by
  rw [checkInFrags_inFrags]
  refine checkLoop_forall (fun f ts hf => ?_) (fun f g hf hg => hf.merge hg) tx.id now h ?_ writes 0
  · exact ⟨hf.start, hf.le, hf.fits, hf.eof⟩
  · exact fun f hf => absurd hf (Option.not_mem_none f)

theorem checkInFrags_within {tx : ChnTx} (hord : Ordered tx.inFrags) (now writes : Nat) {f : Fragment}
    (hf : f ∈ tx.inFrags) :
    ∃ g ∈ (checkInFrags tx now writes).1.inFrags, g.start ≤ f.start ∧ f.endAt ≤ g.endAt := by
  rw [checkInFrags_inFrags]
  have hord' : Ordered ((none : Option Fragment).toList ++ tx.inFrags) := hord
  exact checkLoop_within tx.id now hord' writes 0 hf

/-- Without any hole up to the end, the fragments become one. -/
theorem checkLoop_joined (id : Int) (now writes : Nat) {n : Int} {last : Fragment} {frags : List Fragment}
    (hord : Ordered (last :: frags)) (hfits : ∀ f ∈ last :: frags, f.Fits n)
    (hcover : ∀ b, last.endAt ≤ b → b < n → ∃ f ∈ frags, f.start ≤ b ∧ b < f.endAt) :
    ∃ g, checkLoop id now writes (some last) last.endAt frags = ⟨[g], [], true⟩ ∧ g.start = last.start ∧
      g.eof = true := by
  have hlast := hfits last List.mem_cons_self
  induction frags generalizing last with
  | nil =>
      have heof : last.eof = true := by
        apply hlast.eof
        by_contra hne
        rcases hcover last.endAt le_rfl (lt_of_le_of_ne hlast.fits hne) with ⟨f, hf, -⟩
        cases hf
      refine ⟨last, ?_, rfl, heof⟩
      unfold checkLoop
      rw [heof]
      rfl
  | cons f frags ih =>
      rcases List.pairwise_cons.1 hord with ⟨hfirst, hrest⟩
      rcases List.pairwise_cons.1 hrest with ⟨hsecond, hothers⟩
      have hf := hfits f (List.mem_cons_of_mem _ List.mem_cons_self)
      -- the byte behind the last fragment is in none that starts later
      have htouch : f.start ≤ last.endAt := by
        by_contra hlt
        have hle := hf.le
        have hend := hf.fits
        rcases hcover last.endAt le_rfl (by omega) with ⟨g, hg, hlow, -⟩
        rcases List.mem_cons.1 hg with rfl | hg
        · omega
        · have hbehind := hsecond g hg
          omega
      have hends := le_end_mergeFrag last f
      have hord' : Ordered (mergeFrag last f :: frags) := by
        refine List.pairwise_cons.2 ⟨fun g hg => ?_, hothers⟩
        rw [mergeFrag_start]
        exact hfirst g (List.mem_cons_of_mem _ hg)
      have hmerged := hlast.merge hf
      have hfits' : ∀ g ∈ mergeFrag last f :: frags, g.Fits n := by
        intro g hg
        rcases List.mem_cons.1 hg with rfl | hg
        · exact hmerged
        · exact hfits g (List.mem_cons_of_mem _ (List.mem_cons_of_mem _ hg))
      -- what lies behind both is not in the one that is merged
      have hcover' : ∀ b, (mergeFrag last f).endAt ≤ b → b < n → ∃ g ∈ frags, g.start ≤ b ∧ b < g.endAt := by
        intro b hlow hhigh
        rcases hcover b (hends.1.trans hlow) hhigh with ⟨g, hg, hin⟩
        rcases List.mem_cons.1 hg with rfl | hg
        · omega
        · exact ⟨g, hg, hin⟩
      have hnext := ih hord' hfits' hcover' hmerged
      rw [mergeFrag_start] at hnext
      rw [checkLoop_cons, if_neg (by omega)]
      exact hnext

/-- The command that fills the last hole ends the transfer. -/
theorem registerFrag_over {tx : ChnTx} {c : Copy} {ts : Nat} (asks : Nat) {n : Int} (hord : Ordered tx.inFrags)
    (hfits : ∀ f ∈ insertByOffset (inFrag ts c) tx.inFrags, f.Fits n)
    (hcover : ∀ b, 0 ≤ b → b < n → ∃ f ∈ insertByOffset (inFrag ts c) tx.inFrags, f.start ≤ b ∧ b < f.endAt) :
    (registerFrag tx c ts asks).2.2 = true ∧ isOver (registerFrag tx c ts asks).1.inFrags = true := by
  have hord' := hord.insert (inFrag ts c)
  have hmem : inFrag ts c ∈ insertByOffset (inFrag ts c) tx.inFrags := mem_insertByOffset.2 (.inl rfl)
  unfold registerFrag checkInFrags
  revert hord' hfits hcover hmem
  generalize insertByOffset (inFrag ts c) tx.inFrags = frags
  intro hfits hcover hord' hmem
  cases frags with
  | nil => cases hmem
  | cons f frags =>
      have hf := hfits f List.mem_cons_self
      have hstart : f.start = 0 := by
        have hlow := hf.start
        have hle := hf.le
        have hend := hf.fits
        by_contra hne
        rcases hcover 0 le_rfl (by omega) with ⟨g, hg, hgstart, -⟩
        rcases List.mem_cons.1 hg with rfl | hg
        · omega
        · have hbehind := (List.pairwise_cons.1 hord').1 g hg
          omega
      have hbehind : ∀ b, f.endAt ≤ b → b < n → ∃ g ∈ frags, g.start ≤ b ∧ b < g.endAt := by
        intro b hlow hhigh
        have hle := hf.le
        rcases hcover b (by omega) hhigh with ⟨g, hg, hin⟩
        rcases List.mem_cons.1 hg with rfl | hg
        · omega
        · exact ⟨g, hg, hin⟩
      rcases checkLoop_joined tx.id ts asks hord' hfits hbehind with ⟨g, hloop, hgstart, heof⟩
      have hall : checkLoop tx.id ts asks none 0 (f :: frags) = ⟨[g], [], true⟩ := by
        rw [checkLoop_cons, if_neg (by omega)]
        exact hloop
      simp only [hall]
      refine ⟨trivial, ?_⟩
      rw [isOver, heof, hgstart, hstart]
      rfl

end Scambio
