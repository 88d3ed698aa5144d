import Clearra.Proof.Cover.ExactAtMost
import Clearra.Proof.Ctk3.Bundle
import Clearra.Proof.Ctk3.Compatible
import Clearra.Proof.Ctk3.Mirror
import Clearra.Proof.Ctk3.Revisions
import Clearra.Proof.Ctk3.Transform
import Clearra.Proof.Delegation.Restart
import Clearra.Proof.Executor.BuildGraph
import Clearra.Proof.Executor.HardDrop
import Clearra.Proof.Executor.SkyCeiling
import Clearra.Proof.Supply.BagAdmission
import Clearra.Proof.Supply.CompactUnion
import Clearra.Proof.Supply.QueueExpression
import Clearra.Proof.Tablebase.RevealLedger
