import SystemsProgramming.MtlsChat.Proofs.HandshakeProofs
import SystemsProgramming.MtlsChat.Proofs.OwnershipProofs
import SystemsProgramming.MtlsChat.Proofs.StarvationProofs
import SystemsProgramming.MtlsChat.Proofs.DeliveryProofs
import SystemsProgramming.TcpSuite.Proofs.OutputProofs
import SystemsProgramming.HttpServer.Proofs.RequestLineProofs
import SystemsProgramming.HttpServer.Proofs.ContentTypeProofs
import SystemsProgramming.HttpServer.Proofs.BodyProofs
import SystemsProgramming.PacketSniffer.Proofs.FilterProofs
import SystemsProgramming.PacketSniffer.Proofs.RestoreProofs
import SystemsProgramming.PacketSniffer.Proofs.WindowProofs
import SystemsProgramming.PortScanner.Proofs.ReplyProofs
import SystemsProgramming.Hexdump.Proofs.AlignmentProofs
import SystemsProgramming.ParallelRunner.Proofs.CollectProofs
import SystemsProgramming.ParallelRunner.Proofs.CompleteOutputProofs
import SystemsProgramming.GreyscaleFilter.Proofs.IdempotenceProofs
import SystemsProgramming.GreyscaleFilter.Proofs.DeterminismProofs
import SystemsProgramming.MiniShell.Proofs.OutputProofs
import SystemsProgramming.MiniShell.Proofs.TokenVectorProofs
import SystemsProgramming.MiniShell.Proofs.PwdProofs
import SystemsProgramming.MiniPipeline.Proofs.WiringProofs
import SystemsProgramming.HttpServer.Proofs.DecodingProofs
import SystemsProgramming.HttpServer.Proofs.GrammarProofs
import SystemsProgramming.HttpServer.Proofs.ContainmentProofs
import SystemsProgramming.HttpServer.Proofs.SurvivalProofs
import SystemsProgramming.IoRedirector.Proofs.RedirectionProofs
import SystemsProgramming.TextReadability.Proofs.CountProofs
import SystemsProgramming.MtlsChat.Proofs.NfdsProofs
import SystemsProgramming.PacketSniffer.Proofs.InterfacesProofs
import SystemsProgramming.HttpServer.Proofs.ResponseProofs
import SystemsProgramming.MiniShell.Proofs.LineProofs
import SystemsProgramming.Hexdump.Proofs.SafetyProofs
import SystemsProgramming.MiniShell.Proofs.DispatchProofs
import SystemsProgramming.TcpSuite.Proofs.SystemProofs
import SystemsProgramming.PortScanner.Proofs.ScanProofs
import SystemsProgramming.HttpServer.Proofs.FetchProofs
import SystemsProgramming.MiniPipeline.Proofs.FlowProofs
import SystemsProgramming.Hexdump.Proofs.CommandLineProofs
import SystemsProgramming.Foundations.RecordLine
import SystemsProgramming.MtlsChat.Proofs.BroadcastProofs
import SystemsProgramming.MtlsChat.Proofs.ChatProofs
