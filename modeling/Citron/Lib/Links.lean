/-
# Following links

Nodes with links to other nodes. Following all links from a node ends when the node is accessible against the direction of
the links. Where there are finitely many nodes this is so if and only if no node that is reached is reached from itself again.
-/
import Mathlib.Data.Fintype.EquivFin

namespace Citron
namespace Lib

open Relation

variable {α : Type*} {links : α → α → Prop} {a b : α}

/-- No node that is reached from this one is reached from itself again. -/
def Acyclic (links : α → α → Prop) (a : α) : Prop := ∀ b, ReflTransGen links a b → ¬TransGen links b b

theorem acc_of_reflTransGen (h : Acc (flip links) a) (hab : ReflTransGen links a b) : Acc (flip links) b := by
  induction hab with
  | refl => exact h
  | tail _ hlink ih => exact ih.inv hlink

/-- An accessible node is not reached from itself. -/
theorem not_transGen_of_acc (h : Acc (flip links) a) : ¬TransGen links a a := by
  induction h with
  | intro a _ ih =>
    intro hcycle
    -- the cycle also leads from the node's successor back to it
    obtain ⟨b, hab, hba⟩ := TransGen.head'_iff.mp hcycle
    exact ih b hab (TransGen.tail' hba hab)

theorem acyclic_of_acc (h : Acc (flip links) a) : Acyclic links a :=
  fun _ hab => not_transGen_of_acc (acc_of_reflTransGen h hab)

/-- The nodes that are reached from a node, with one behind another that it is reached from. -/
def Behind (links : α → α → Prop) (a : α) (x y : { b // ReflTransGen links a b }) : Prop := TransGen links y.1 x.1

theorem acc_of_acyclic [Finite α] (h : Acyclic links a) : Acc (flip links) a := by
  have htrans : IsTrans { b // ReflTransGen links a b } (Behind links a) := ⟨fun _ _ _ hxy hyz => TransGen.trans hyz hxy⟩
  have hirrefl : Std.Irrefl (Behind links a) := ⟨fun x => h x.1 x.2⟩
  have hwf : WellFounded (Behind links a) := Finite.wellFounded_of_trans_of_irrefl _
  have hacc (x : { b // ReflTransGen links a b }) : Acc (flip links) x.1 := by
    induction x using hwf.induction with
    | _ x ih =>
      constructor
      intro b hlink
      exact ih ⟨b, x.2.tail hlink⟩ (TransGen.single hlink)
  exact hacc ⟨a, ReflTransGen.refl⟩

/-- **Links among finitely many nodes are followed to an end if and only if they are acyclic.** -/
theorem acc_iff_acyclic [Finite α] : Acc (flip links) a ↔ Acyclic links a := ⟨acyclic_of_acc, acc_of_acyclic⟩

end Lib
end Citron
